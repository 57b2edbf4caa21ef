import SparqlTokens.Proofs.Lexing.Positions

/-! A run that hands out everything and goes on behind errors tiles its text, whatever the table.
Each item has an end: a token ends with its lexeme, and an error ends behind the character at fault.
A token begins exactly where the item before it ends; an error lies there or further on, and what it
passes over is the only text that no token covers. -/
namespace SparqlTokens

open Text

/-- The size of the character at a byte offset. -/
def widthAt (source : List Char) (offset : ℕ) : ℕ :=
  match dropBytes? offset source with
  | some (c :: _) => c.utf8Size
  | _ => 0

theorem takeBytes?_split {n : ℕ} {cs u : List Char} (h : takeBytes? n cs = some u) :
    byteSize u = n ∧ u <+: cs := by
  induction cs generalizing n u with
  | nil => cases n <;> cases h; exact ⟨rfl, List.nil_prefix⟩
  | cons c cs ih =>
    cases n with
    | zero => cases h; exact ⟨rfl, List.nil_prefix⟩
    | succ n =>
      simp only [takeBytes?] at h
      split at h
      · next hc =>
        obtain ⟨v, hv, rfl⟩ := Option.map_eq_some_iff.mp h
        obtain ⟨hsize, hpre⟩ := ih hv
        exact ⟨by rw [byteSize_cons]; omega, List.cons_prefix_cons.mpr ⟨rfl, hpre⟩⟩
      · cases h

theorem dropBytes?_slice {start stop : ℕ} {cs u r : List Char}
    (h : slice? start stop cs = some u) (hr : dropBytes? stop cs = some r) :
    dropBytes? start cs = some (u ++ r) := by
  unfold slice? at h
  split at h
  · next hle =>
    obtain ⟨v, hv, hu⟩ := Option.bind_eq_some_iff.mp h
    obtain ⟨p, rfl, hp⟩ := dropBytes?_eq_some_iff.mp hv
    obtain ⟨hsize, w, rfl⟩ := takeBytes?_split hu
    have hstop : stop = byteSize (p ++ u) := by rw [byteSize_append]; omega
    have htext := dropBytes?_byteSize_append (p ++ u) w
    rw [List.append_assoc, ← hstop, hr] at htext
    cases htext
    exact hv
  · cases h

namespace Item

/-- Where an item ends. -/
def stop (source : List Char) : Item → ℕ
  | token t => t.range.stop
  | error e => e.offset + widthAt source e.offset

/-- A token from `start` on, with its text. -/
def TokenAt (source : List Char) (start : ℕ) (t : Token) : Prop :=
  t.range.start = start ∧ start < t.range.stop ∧
    slice? t.range.start t.range.stop source = some t.lexeme.toList

/-- An error at `start` or behind it, at a character of the text. -/
def ErrorFrom (source : List Char) (start : ℕ) (e : LexicalError) : Prop :=
  start ≤ e.offset ∧ 0 < widthAt source e.offset

/-- An item that follows an item that ends at `start`. -/
def Follows (source : List Char) (start : ℕ) : Item → Prop
  | token t => TokenAt source start t
  | error e => ErrorFrom source start e

/-- Items that follow one another from `start` to the end of the text. -/
def Tiles (source : List Char) : ℕ → List Item → Prop
  | start, [] => start = byteSize source
  | start, i :: items => i.Follows source start ∧ Tiles source (i.stop source) items

/-- Where the first `n` items end, if they begin at `start`. -/
def stopFrom (source : List Char) (start : ℕ) (items : List Item) (n : ℕ) : ℕ :=
  ((items.take n).getLast?.map (stop source)).getD start

theorem follows_lt {source : List Char} {start : ℕ} {i : Item} (h : i.Follows source start) :
    start < i.stop source := by
  cases i with
  | token t => exact h.2.1
  | error e =>
    have := h.1
    have := h.2
    simp only [stop]; omega

theorem widthAt_append (p r : List Char) (c : Char) :
    widthAt (p ++ c :: r) (byteSize p) = c.utf8Size := by
  simp [widthAt, dropBytes?_byteSize_append]

end Item

/-- The settings under which every step hands out an item and none ends the run. -/
def Settings.Verbose (settings : Settings) : Prop :=
  settings.emitWhitespace = true ∧ settings.stopOnFirstError = false

def Settings.verbose (comments : Bool) (radius : ℕ) : Settings where
  emitWhitespace := true
  stopOnFirstError := false
  comments := comments
  snippetRadius := radius

theorem Settings.verbose_spec (comments : Bool) (radius : ℕ) :
    (Settings.verbose comments radius).Verbose := ⟨rfl, rfl⟩

namespace Scan

theorem advance_over {u r : List Char} {s : Scan} (ha : s.ahead = u ++ r) :
    (s.advance u.length).place.offset = s.place.offset + byteSize u ∧
      (s.advance u.length).ahead = r := by
  simp [advance, ha, Place.offset_advance]

theorem placeToken_at {text : List Char} {s : Scan} (h : Placed text s) {c : Cut}
    (hc : Table.Cuts c.lexeme s.ahead) : Item.TokenAt text s.place.offset (s.placeToken c) := by
  have hpos := byteSize_pos hc.1
  refine ⟨rfl, by simp only [placeToken]; omega, ?_⟩
  simp only [placeToken, String.toList_ofList]
  exact placed_slice h hc.2

/-- The cause of an error is a character of the text, and the scan goes on right behind it. -/
theorem placeError_char {text : List Char} {s : Scan} (h : Placed text s) {f : Failure}
    (hf : f.ahead < s.ahead.length) : Item.ErrorFrom text s.place.offset (s.placeError f) ∧
      (s.advance (f.ahead + 1)).place.offset = (Item.error (s.placeError f)).stop text := by
  have hoffset : (s.placeError f).offset = s.place.offset + byteSize (s.ahead.take f.ahead) := by
    simp only [placeError, advance, Place.offset_advance]
  have hahead : s.ahead = s.ahead.take f.ahead ++ s.ahead[f.ahead] ::
      s.ahead.drop (f.ahead + 1) := by
    rw [← List.drop_eq_getElem_cons hf, List.take_append_drop]
  have htext : text = (s.passed.reverse ++ s.ahead.take f.ahead) ++ s.ahead[f.ahead] ::
      s.ahead.drop (f.ahead + 1) := by
    rw [List.append_assoc, ← hahead, ← placed_text h]
  have hwidth : widthAt text (s.placeError f).offset = (s.ahead[f.ahead]).utf8Size := by
    rw [hoffset, placed_offset h, ← byteSize_append]
    conv_lhs => rw [htext]
    exact Item.widthAt_append _ _ _
  refine ⟨⟨by omega, by rw [hwidth]; exact Char.utf8Size_pos _⟩, ?_⟩
  rw [Item.stop, hwidth, hoffset]
  simp only [advance, Place.offset_advance, List.take_add_one, List.getElem?_eq_getElem hf,
    byteSize_append, Option.toList_some, byteSize_cons, byteSize_nil]
  omega

/-- One verbose step gives an item that follows on the place of the scan, and ends where the scan
goes on. -/
theorem verbose_step {text : List Char} {s : Scan} (h : Placed text s) (hv : s.settings.Verbose)
    (hd : s.done = false) (ha : s.ahead ≠ []) :
    ∃ i, s.next = (some i, s.step.2) ∧ i.Follows text s.place.offset ∧
      s.step.2.place.offset = i.stop text ∧ s.step.2.ahead.length < s.ahead.length ∧
      s.step.2.done = false ∧ s.step.2.settings = s.settings := by
  have hgoes : ¬ s.Ended := by simp [Ended, hd, ha]
  rcases step_cases s ha with ⟨c, _, hc, he⟩ | ⟨f, _, hf, he⟩
  · have hshown : s.shown c = some (.token (s.placeToken c)) := by simp [shown, hv.1]
    obtain ⟨r, hr⟩ := hc.2
    have hlen := List.length_pos_of_ne_nil hc.1
    have hnext := next_some hgoes (by rw [he]; exact hshown)
    rw [he] at hnext ⊢
    refine ⟨_, hnext, placeToken_at h hc, (advance_over hr.symm).1, ?_, hd, rfl⟩
    rw [(advance_over hr.symm).2, ← hr, List.length_append]
    omega
  · have hskip : s.skip f = s.advance (f.ahead + 1) := by simp [skip, hv.2]
    rw [hskip] at he
    have hnext := next_some hgoes (by rw [he])
    rw [he] at hnext ⊢
    refine ⟨_, hnext, (placeError_char h hf).1, (placeError_char h hf).2, ?_, hd, rfl⟩
    simp only [advance, List.length_drop]
    omega

/-- From any place of a verbose run, the remaining items tile the text that is left. -/
theorem drainWith_tiles {text : List Char} {bound : ℕ} {s : Scan} (h : Placed text s)
    (hv : s.settings.Verbose) (hd : s.done = false) (hb : s.ahead.length < bound) :
    Item.Tiles text s.place.offset (drainWith bound s).1 := by
  induction bound generalizing s with
  | zero => omega
  | succ bound ih =>
    by_cases ha : s.ahead = []
    · have hn : s.next = (none, { s with done := true }) := by simp [next, nextWith, hd, ha]
      have hend : s.place.offset = byteSize text := by
        rw [placed_offset h, placed_text h, ha, List.append_nil]
      simp only [drainWith, hn]
      exact hend
    · obtain ⟨i, hn, hfollows, hstop, hlt, hd', hs⟩ := verbose_step h hv hd ha
      have hu : Placed text s.step.2 := placed_step h (by simp [Ended, hd, ha])
      have rest := ih hu (hs ▸ hv) hd' (by omega)
      simp only [drainWith, hn]
      exact ⟨hfollows, hstop ▸ rest⟩

theorem items_tile (t : Table) {settings : Settings} (hv : settings.Verbose) (text : List Char) :
    Item.Tiles text 0 (t.items settings text) :=
  drainWith_tiles (placed_start t settings text) hv rfl (Nat.lt_succ_self _)

end Scan

namespace Item

theorem stopFrom_cons (source : List Char) (start : ℕ) (i : Item) (items : List Item) (n : ℕ) :
    stopFrom source start (i :: items) (n + 1) = stopFrom source (i.stop source) items n := by
  simp only [stopFrom, List.take_succ_cons, List.getLast?_cons]
  cases (items.take n).getLast? <;> rfl

variable {source : List Char} {start : ℕ} {items : List Item}

theorem tiles_follow (h : Tiles source start items) {n : ℕ} {i : Item} (hi : items[n]? = some i) :
    i.Follows source (stopFrom source start items n) := by
  induction items generalizing start n with
  | nil => cases hi
  | cons j items ih =>
    cases n with
    | zero => cases hi; exact h.1
    | succ n => rw [stopFrom_cons]; exact ih h.2 hi

theorem tiles_end (h : Tiles source start items) :
    stopFrom source start items items.length = byteSize source := by
  induction items generalizing start with
  | nil => exact h
  | cons j items ih => rw [List.length_cons, stopFrom_cons]; exact ih h.2

theorem tiles_behind (h : Tiles source start items) :
    (∀ t, .token t ∈ items → start ≤ t.range.start) ∧ ∀ e, .error e ∈ items → start ≤ e.offset := by
  induction items generalizing start with
  | nil => exact ⟨fun t ht => (by cases ht), fun e he => (by cases he)⟩
  | cons i items ih =>
    have hlt := follows_lt h.1
    have rest := ih h.2
    refine ⟨fun t ht => ?_, fun e he => ?_⟩
    · rcases List.mem_cons.mp ht with rfl | ht
      · exact h.1.1.ge
      · exact hlt.le.trans (rest.1 t ht)
    · rcases List.mem_cons.mp he with rfl | he
      · exact h.1.1
      · exact hlt.le.trans (rest.2 e he)

theorem mem_tokens {t : Token} : t ∈ items.filterMap token? ↔ .token t ∈ items := by
  simp only [List.mem_filterMap]
  constructor
  · rintro ⟨i, hi, h⟩
    cases i <;> cases h
    exact hi
  · exact fun h => ⟨_, h, rfl⟩

theorem mem_errors {e : LexicalError} : e ∈ items.filterMap error? ↔ .error e ∈ items := by
  simp only [List.mem_filterMap]
  constructor
  · rintro ⟨i, hi, h⟩
    cases i <;> cases h
    exact hi
  · exact fun h => ⟨_, h, rfl⟩

theorem tiles_errors_increase (h : Tiles source start items) :
    (items.filterMap error?).Pairwise (·.offset < ·.offset) := by
  induction items generalizing start with
  | nil => exact List.Pairwise.nil
  | cons i items ih =>
    cases i with
    | token t => exact ih h.2
    | error e =>
      refine List.Pairwise.cons ?_ (ih h.2)
      intro d hd
      have hstop := (tiles_behind h.2).2 d (mem_errors.mp hd)
      have hwidth := h.1.2
      simp only [stop] at hstop
      omega

theorem tiles_tokens_apart (h : Tiles source start items) :
    (items.filterMap token?).Pairwise (·.range.stop ≤ ·.range.start) := by
  induction items generalizing start with
  | nil => exact List.Pairwise.nil
  | cons i items ih =>
    cases i with
    | error e => exact ih h.2
    | token t =>
      refine List.Pairwise.cons ?_ (ih h.2)
      intro u hu
      exact (tiles_behind h.2).1 u (mem_tokens.mp hu)

/-- A byte behind the start is in a token, or between the end of an item and the end of an error
that follows it. -/
theorem tiles_cover (h : Tiles source start items) {b : ℕ} (hb : start ≤ b)
    (hs : b < byteSize source) :
    (∃ t, .token t ∈ items ∧ t.range.start ≤ b ∧ b < t.range.stop) ∨
      ∃ n e, items[n]? = some (.error e) ∧ stopFrom source start items n ≤ b ∧
        b < stopFrom source start items (n + 1) := by
  induction items generalizing start with
  | nil => have : start = byteSize source := h; omega
  | cons i items ih =>
    by_cases hi : b < i.stop source
    · cases i with
      | token t => exact Or.inl ⟨t, List.mem_cons_self, h.1.1 ▸ hb, hi⟩
      | error e => exact Or.inr ⟨0, e, rfl, hb, by rw [stopFrom_cons]; exact hi⟩
    · rcases ih h.2 (not_lt.mp hi) with ⟨t, ht, hr⟩ | ⟨n, e, he, hr⟩
      · exact Or.inl ⟨t, List.mem_cons_of_mem _ ht, hr⟩
      · exact Or.inr ⟨n + 1, e, he, by simpa only [stopFrom_cons] using hr⟩

theorem tiles_join (h : Tiles source start items) (he : ∀ e, .error e ∉ items) :
    dropBytes? start source = some ((items.filterMap token?).flatMap (·.lexeme.toList)) := by
  induction items generalizing start with
  | nil =>
    have hsource := dropBytes?_byteSize_append source []
    have hstart : start = byteSize source := h
    rwa [List.append_nil, ← hstart] at hsource
  | cons i items ih =>
    cases i with
    | error e => exact absurd List.mem_cons_self (he e)
    | token t =>
      have rest := ih h.2 (fun e hm => he e (List.mem_cons_of_mem _ hm))
      obtain ⟨hstart, hlt, hslice⟩ := h.1
      simp only [stop] at rest
      exact dropBytes?_slice (hstart ▸ hslice) rest

end Item

open Item in
/-- How items cover a text: item `n` follows on the end of the items before it, and nothing else of
the text is left over than what errors pass over. -/
structure Tiling (source : List Char) (items : List Item) : Prop where
  token_follows : ∀ n t, items[n]? = some (.token t) →
    t.range.start = stopFrom source 0 items n ∧ t.range.start < t.range.stop ∧
      slice? t.range.start t.range.stop source = some t.lexeme.toList
  error_follows : ∀ n e, items[n]? = some (.error e) →
    stopFrom source 0 items n ≤ e.offset ∧ 0 < widthAt source e.offset
  last_end : stopFrom source 0 items items.length = byteSize source
  errors_increase : (items.filterMap error?).Pairwise (·.offset < ·.offset)
  tokens_apart : (items.filterMap token?).Pairwise (·.range.stop ≤ ·.range.start)
  uncovered : ∀ b < byteSize source,
    (∀ t, .token t ∈ items → ¬ (t.range.start ≤ b ∧ b < t.range.stop)) →
    ∃ n e, items[n]? = some (.error e) ∧ stopFrom source 0 items n ≤ b ∧
      b < stopFrom source 0 items (n + 1)
  lossless : (∀ e, .error e ∉ items) →
    (items.filterMap token?).flatMap (·.lexeme.toList) = source

/-- Everything handed out and errors passed over, a run tiles its text, for any table, whatever its
rules match and whether or not they have kinds. -/
theorem verbose_run_tiles (t : Table) (comments : Bool) (radius : ℕ) (text : List Char) :
    Tiling text (t.items (Settings.verbose comments radius) text) := by
  have h := Scan.items_tile t (Settings.verbose_spec comments radius) text
  refine ⟨?_, ?_, Item.tiles_end h, Item.tiles_errors_increase h, Item.tiles_tokens_apart h,
    ?_, ?_⟩
  · intro n t ht
    obtain ⟨hstart, hlt, hslice⟩ := Item.tiles_follow h ht
    exact ⟨hstart, hstart ▸ hlt, hslice⟩
  · intro n e he
    exact Item.tiles_follow h he
  · intro b hb hfree
    rcases Item.tiles_cover h (Nat.zero_le b) hb with ⟨t, ht, hr⟩ | he
    · exact absurd hr (hfree t ht)
    · exact he
  · intro he
    have hall := Item.tiles_join h he
    simpa [dropBytes?] using hall.symm

end SparqlTokens
