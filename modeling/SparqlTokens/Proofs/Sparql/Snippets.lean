import SparqlTokens.Proofs.Text.Addresses
import SparqlTokens.Proofs.Lexing.Addressed
import SparqlTokens.Proofs.Sparql.Blame
import SparqlTokens.Proofs.Sparql.Blanks

/-! Snippets of lexical errors: a run of characters of the line around the error, found by byte
offsets and cut by counting characters. The line of a snippet is not that of a report, since it ends
at the first carriage return. A column of 32 bits leads into the snippet until it begins again,
which takes a line of 2^32 - 1 characters. -/
namespace SparqlTokens

open Text

namespace LexicalError

def address (e : LexicalError) : Address := (⟨e.line, e.column⟩ : Position).address

/-- The line around the place between two texts, before the place and behind it. It starts behind
the last line feed before the place and ends at the first line feed or carriage return behind it. -/
structure LineAround (p r before behind : List Char) : Prop where
  start : ∃ above, p = above ++ before ∧ (above = [] ∨ above.getLast? = some '\n')
  feed : '\n' ∉ before
  stop : ∃ below, r = behind ++ below ∧ ∀ c ∈ below.head?, c = '\n' ∨ c = '\r'
  inside : ∀ c ∈ behind, ¬ (c = '\n' ∨ c = '\r')

/-- Addition on a counter of 64 bits that stays at the end of its range. -/
def saturated (m n : ℕ) : ℕ := min (m + n) (2 ^ 64 - 1)

/-- Whether the line of a snippet goes on with a character. -/
def goesOn (c : Char) : Bool := c ≠ '\n' && c ≠ '\r'

theorem goesOn_iff {c : Char} : goesOn c = true ↔ ¬ (c = '\n' ∨ c = '\r') := by
  simp [goesOn]

theorem goesOn_of_not_end {c : Char} (h : LineStarts.isLineEnd c = false) : goesOn c = true := by
  simpa [goesOn, LineStarts.isLineEnd] using h

theorem lineAround_exists (p r : List Char) :
    LineAround p r (lastLine p) (r.takeWhile goesOn) := by
  refine ⟨⟨upToLastLine p, (upToLastLine_append_lastLine p).symm, upToLastLine_end p⟩,
    no_feed_lastLine p, ⟨r.dropWhile goesOn, List.takeWhile_append_dropWhile.symm, ?_⟩, ?_⟩
  · intro c hc
    have hstop := List.head?_dropWhile_not goesOn r
    rw [Option.mem_def.mp hc] at hstop
    by_contra hneither
    exact absurd (goesOn_iff.mpr hneither) (by simpa using hstop)
  · intro c hc
    exact goesOn_iff.mp (List.mem_takeWhile_imp hc)

section Around

variable {p r before behind before' behind' : List Char} {radius : ℕ}

theorem LineAround.unique (h : LineAround p r before behind)
    (h' : LineAround p r before' behind') : before = before' ∧ behind = behind' := by
  obtain ⟨above, habove, hend⟩ := h.start
  obtain ⟨above', habove', hend'⟩ := h'.start
  obtain ⟨below, hbelow, hstop⟩ := h.stop
  obtain ⟨below', hbelow', hstop'⟩ := h'.stop
  have feeds : ∀ {a b : List Char}, p = a ++ b → '\n' ∉ b → a.count '\n' = p.count '\n' := by
    intro a b hp hb
    rw [hp, List.count_append, List.count_eq_zero.mpr hb, Nat.add_zero]
  have hcount : above.count '\n' = above'.count '\n' :=
    (feeds habove h.feed).trans (feeds habove' h'.feed).symm
  constructor
  · exact (above_settles hend hend' hcount (habove.symm.trans habove')).2
  · exact (parts_settle (fun _ => line_stops hstop h'.inside) (fun _ => line_stops hstop' h.inside)
      (hbelow.symm.trans hbelow')).1

theorem LineAround.eq (h : LineAround p r before behind) :
    before = lastLine p ∧ behind = r.takeWhile goesOn := h.unique (lineAround_exists p r)

theorem LineAround.no_feed (h : LineAround p r before behind) : '\n' ∉ before ++ behind := by
  intro hmem
  rcases List.mem_append.mp hmem with hmem | hmem
  · exact h.feed hmem
  · exact h.inside _ hmem (Or.inl rfl)

/-- A run of a list depends on where it stops only within the list. -/
theorem extract_congr {l : List Char} {start stop stop' : ℕ}
    (h : min stop l.length = min stop' l.length) : l.extract start stop = l.extract start stop' := by
  rw [List.extract_eq_drop_take', List.extract_eq_drop_take', List.take_eq_take_min, h,
    ← List.take_eq_take_min]

/-- The window of a place is a run of its line. -/
theorem LineAround.window (h : LineAround p r before behind) (radius : ℕ) :
    window radius p.reverse r = (before ++ behind).extract (before.length - radius)
      (min (before ++ behind).length (before.length + radius)) := by
  obtain ⟨rfl, rfl⟩ := h.eq
  have hrun : LexicalError.window radius p.reverse r = (lastLine p ++ r.takeWhile goesOn).extract
      ((lastLine p).length - radius) ((lastLine p).length + radius) := rfl
  rw [hrun]
  apply extract_congr
  omega

/-- A counter that stays at the end of its range finds the same window in a line that it can
count. -/
theorem LineAround.window_saturated (h : LineAround p r before behind) (radius : ℕ)
    (hl : (before ++ behind).length < 2 ^ 64) :
    LexicalError.window radius p.reverse r = ((before ++ behind).drop (before.length - radius)).take
      (saturated before.length radius - (before.length - radius)) := by
  rw [h.window, ← List.extract_eq_take_drop]
  apply extract_congr
  rw [saturated]
  omega

theorem LineAround.window_short (h : LineAround p r before behind) (radius : ℕ) :
    (LexicalError.window radius p.reverse r).length ≤ 2 * radius := by
  rw [h.window, List.extract_eq_take_drop, List.length_take]
  omega

theorem LineAround.window_no_feed (h : LineAround p r before behind) (radius : ℕ) :
    '\n' ∉ LexicalError.window radius p.reverse r := by
  rw [h.window, List.extract_eq_take_drop]
  intro hmem
  exact h.no_feed (List.mem_of_mem_drop (List.mem_of_mem_take hmem))

/-- A window shows the character at its place, behind what it shows of the line before. -/
theorem window_at {c : Char} (hc : LineStarts.isLineEnd c = false) (p r : List Char) {radius : ℕ}
    (hradius : 1 ≤ radius) :
    (window radius p.reverse (c :: r))[min (lastLine p).length radius]? = some c := by
  have haround := lineAround_exists p (c :: r)
  rw [List.takeWhile_cons_of_pos (goesOn_of_not_end hc)] at haround
  rw [haround.window, List.extract_eq_take_drop, List.getElem?_take_of_lt, List.getElem?_drop]
  · have hplace : (lastLine p).length - radius + min (lastLine p).length radius =
        (lastLine p).length := by omega
    rw [hplace, List.getElem?_append_right le_rfl, Nat.sub_self]
    rfl
  · rw [List.length_append, List.length_cons]
    omega

end Around

end LexicalError

namespace Sparql

open LexicalError Scan

attribute [local irreducible] table

/-- The error of a backslash behind blanks. -/
theorem error_behind_blanks {bl : List Char} (hne : bl ≠ []) (hbl : Blank bl) :
    Emits (ofText table {} (bl ++ ['\\'])) (.error ⟨.invalidEscape, byteSize bl,
      (counted bl).line, (counted bl).column, String.ofList (window 24 bl.reverse ['\\'])⟩) := by
  let s := ofText table {} (bl ++ ['\\'])
  let u : Scan :=
    { table, settings := {}, place := Place.advance {} bl, passed := bl.reverse, ahead := ['\\'] }
  have hblanks : s.table.cut s.settings s.ahead = .ok ⟨.whitespace, "WHITESPACE", bl⟩ := by
    refine cut_blanks hne hbl ?_
    rintro c r heq
    cases heq
    decide
  have hs : ¬ s.Ended :=
    not_or.mpr ⟨Bool.false_ne_true, List.append_ne_nil_of_left_ne_nil hne _⟩
  have hadvance : s.advance bl.length = u := by
    simp only [s, u, ofText, advance, List.take_left, List.drop_left, List.append_nil]
  have hstep : s.step = (none, u) := (step_cut hblanks).trans (congrArg (Prod.mk _) hadvance)
  have hu : ¬ u.Ended := not_or.mpr ⟨Bool.false_ne_true, List.cons_ne_nil _ _⟩
  have hfailure : u.table.cut u.settings u.ahead = .error { kind := .invalidEscape } :=
    holds_backslash.mp ⟨[], rfl, rfl⟩
  have herror : u.step.1 = some (.error (u.placeError { kind := .invalidEscape })) :=
    congrArg Prod.fst (step_error hfailure)
  refine ⟨s, .refl, ?_⟩
  rw [next_silent hs (congrArg Prod.fst hstep), hstep, next_some hu herror]
  have hplace : u.place = ⟨byteSize bl, (counted bl).line, (counted bl).column⟩ :=
    advance_counts bl
  change some (Item.error ⟨_, u.place.offset, u.place.line, u.place.column, _⟩) = _
  rw [hplace]
  rfl

theorem lineAround_blanks (n : ℕ) :
    LineAround (List.replicate n ' ') ['\\'] (List.replicate n ' ') ['\\'] := by
  refine ⟨⟨[], rfl, Or.inl rfl⟩, ?_, ⟨[], rfl, fun c hc => by cases hc⟩,
    List.forall_mem_singleton.mpr (by decide)⟩
  intro hmem
  cases List.eq_of_mem_replicate hmem

theorem counted_blanks (n : ℕ) : counted (List.replicate n ' ') = ⟨1, n + 1⟩ := by
  have hline := (lineAround_blanks n).eq.1
  rw [counted, ← hline, List.length_replicate, List.count_replicate, if_neg (by decide)]

theorem window_behind_blanks {n : ℕ} (hn : 1 ≤ n) :
    (window 24 (List.replicate n ' ').reverse ['\\'])[0]? = some ' ' := by
  rw [(lineAround_blanks n).window, List.extract_eq_take_drop, List.getElem?_take_of_lt,
    List.getElem?_drop, List.getElem?_append_left, List.getElem?_replicate_of_lt]
  · rw [List.length_replicate]
    omega
  · rw [List.length_replicate]
    omega
  · rw [List.length_append, List.length_replicate, List.length_singleton]
    omega

theorem shown_behind_blanks {n : ℕ} (hn : 1 ≤ n) :
    let text := List.replicate n ' ' ++ ['\\']
    ∃ e, Emits (ofText table {} text) (.error e) ∧ dropBytes? e.offset text = some ['\\'] ∧
      e.address = ⟨1, UInt32.ofNat (n + 1)⟩ ∧ e.snippet.toList[0]? = some ' ' := by
  have hne : List.replicate n ' ' ≠ [] :=
    List.ne_nil_of_length_pos (by rw [List.length_replicate]; exact hn)
  have hblank : Blank (List.replicate n ' ') := by
    intro c hc
    rw [List.eq_of_mem_replicate hc]
    exact List.mem_cons_self
  refine ⟨_, error_behind_blanks hne hblank, dropBytes?_byteSize_append _ _, ?_, ?_⟩
  · rw [LexicalError.address, counted_blanks]
    rfl
  · rw [String.toList_ofList]
    exact window_behind_blanks hn

/-- Around every place between two characters there is one line, and what is cut out around the
place, by byte offsets or by characters, is the run of its characters from `radius` before the place
to `radius` behind it, as far as the line goes. The snippet of an error that a run hands out is what
is cut out around its offset, and shows the character there: as far in as characters stand before it
in its line, but for those cut off. The column in 32 bits tells how far, if fewer than 2^32 - 1
characters stand there. -/
theorem snippets_are_windows :
    (∀ p r, ∃ before behind, LineAround p r before behind) ∧
    (∀ p r before behind, LineAround p r before behind →
      (∀ before' behind', LineAround p r before' behind' → before' = before ∧ behind' = behind) ∧
      ∀ radius, ∃ w, windowAt? radius (p ++ r) (byteSize p) = some w ∧
        window radius p.reverse r = w ∧
        w = (before ++ behind).extract (before.length - radius)
          (min (before ++ behind).length (before.length + radius)) ∧
        '\n' ∉ w ∧ w.length ≤ 2 * radius ∧
        ((before ++ behind).length < 2 ^ 64 →
          w = ((before ++ behind).drop (before.length - radius)).take
            (saturated before.length radius - (before.length - radius)))) ∧
    ∀ (settings : Settings) (text : List Char) (e : LexicalError),
      Emits (ofText table settings text) (.error e) →
      windowAt? settings.snippetRadius text e.offset = some e.snippet.toList ∧
      ∃ p c r, text = p ++ c :: r ∧ e.offset = byteSize p ∧
        e.address = Address.advance ⟨1, 1⟩ p ∧
        (1 ≤ settings.snippetRadius →
          e.snippet.toList[min (lastLine p).length settings.snippetRadius]? = some c ∧
          ((lastLine p).length < 2 ^ 32 - 1 →
            e.snippet.toList[min (e.address.column.toNat - 1) settings.snippetRadius]? =
              some c)) := by
  refine ⟨?_, ?_, ?_⟩
  · intro p r
    exact ⟨_, _, lineAround_exists p r⟩
  · intro p r before behind h
    refine ⟨fun _ _ h' => h'.unique h, fun radius => ?_⟩
    exact ⟨_, windowAt?_between radius p r, rfl, h.window radius, h.window_no_feed radius,
      h.window_short radius, h.window_saturated radius⟩
  · intro settings text e h
    obtain ⟨p, c, r, rfl, hend, hoffset, hplace, hsnippet⟩ := emitted_error h
    have haddress : e.address = (counted p).address := congrArg Position.address hplace
    rw [hoffset, hsnippet, String.toList_ofList]
    refine ⟨windowAt?_between _ p (c :: r), p, c, r, rfl, rfl, ?_, ?_⟩
    · rw [haddress, Address.advance_counted]
    intro hradius
    have hshown := window_at hend p r hradius
    refine ⟨hshown, fun hshort => ?_⟩
    have hcolumn : e.address.column.toNat = (lastLine p).length + 1 := by
      rw [haddress]
      have hfits : (counted p).column < 2 ^ 32 := by
        simp only [counted]
        omega
      exact UInt32.toNat_ofNat_of_lt' hfits
    rwa [hcolumn, Nat.add_sub_cancel]

/-- The snippet of a bad escape at the end of its line, before a carriage return. -/
theorem snippet_before_carriage_return :
    Emits (ofText table {} escapedReturn)
      (.error ⟨.invalidEscape, 8, 2, 2, String.ofList ['é', '\\']⟩) ∧
    windowAt? 24 escapedReturn 8 = some ['é', '\\'] ∧
    LineAround ['"', '"', '"', 'a', '\r', '\n', 'é'] ['\\', '\r', '\n'] ['é'] ['\\'] ∧
    window 1 (['"', '"', '"', 'a', '\r', '\n', 'é'] : List Char).reverse ['\\', '\r', '\n'] =
      ['é', '\\'] ∧
    ∃ p c r, escapedReturn = p ++ c :: r ∧ byteSize p = 8 ∧ (lastLine p).length < 2 ^ 32 - 1 ∧
      (['é', '\\'] : List Char)[min (2 - 1) 24]? = some c := by
  have haround : LineAround ['"', '"', '"', 'a', '\r', '\n', 'é'] ['\\', '\r', '\n'] ['é']
      ['\\'] := by
    refine ⟨⟨['"', '"', '"', 'a', '\r', '\n'], rfl, Or.inr rfl⟩, by decide,
      ⟨['\r', '\n'], rfl, ?_⟩, List.forall_mem_singleton.mpr (by decide)⟩
    intro c hc
    exact Or.inr (Option.some.inj hc).symm
  obtain ⟨_, hwindows, herrors⟩ := snippets_are_windows
  obtain ⟨hsnippet, p, c, r, htext, hoffset, _, hshown⟩ := herrors _ _ _ escapedReturn_error
  rw [String.toList_ofList] at hsnippet hshown
  have hshort : (lastLine p).length < 2 ^ 32 - 1 := by
    have hline := (counted_bound p).2
    have hlength : p.length ≤ 10 := by
      have hall := congrArg List.length htext
      rw [List.length_append] at hall
      exact Nat.le.intro hall.symm
    simp only [counted] at hline
    omega
  refine ⟨escapedReturn_error, hsnippet, haround, ?_, p, c, r, htext, hoffset.symm, hshort, ?_⟩
  · obtain ⟨w, _, hw, hrun, _⟩ := (hwindows _ _ _ _ haround).2 1
    rw [hw, hrun]
    rfl
  · exact (hshown (by decide)).2 hshort

/-- Behind so many blanks that the column in 32 bits begins again, it leads to a blank and not to
the backslash that the error is about. -/
theorem column_begins_again :
    let text := List.replicate (2 ^ 32) ' ' ++ ['\\']
    ∃ e, Emits (ofText table {} text) (.error e) ∧ dropBytes? e.offset text = some ['\\'] ∧
      e.address = ⟨1, 1⟩ ∧
      e.snippet.toList[min (e.address.column.toNat - 1) ({} : Settings).snippetRadius]? =
        some ' ' := by
  intro text
  have hmany : 1 ≤ 2 ^ 32 := Nat.one_le_two_pow
  obtain ⟨e, herror, hchar, haddress, hfirst⟩ := shown_behind_blanks hmany
  have hagain : e.address = ⟨1, 1⟩ := haddress.trans (congrArg (Address.mk 1) (by decide))
  refine ⟨e, herror, hchar, hagain, ?_⟩
  rw [hagain]
  exact hfirst

end Sparql

end SparqlTokens
