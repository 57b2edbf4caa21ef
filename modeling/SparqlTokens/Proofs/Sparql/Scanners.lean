import SparqlTokens.Proofs.Sparql.Blame
import SparqlTokens.Proofs.Sparql.Quotation

/-! The scanners for texts in quotes, as loops. A round passes over characters up to the next quote,
backslash or end of line, and looks at what stands there: the text ends, or some characters are read
and the next round begins. Every round that does not end the text reads a character, so a loop ends,
without a failure, and with what the functions give that read from left to right. It ends at closing
quotes if and only if the rule for such texts has a match, of which these quotes are the end. -/
namespace SparqlTokens.Sparql

open Form Terminal
open Text (byteSize)

attribute [local irreducible] table Terminal.rule

structure Scanner where
  quote : Char
  /-- What a text begins and ends with. -/
  quotes : List Char
  /-- Whether a text has to stay within its line. -/
  oneLine : Bool

/-- What a scanner does at a character that it does not pass over. -/
inductive Look where
  | ends (e : Ending)
  /-- It reads some characters and begins another round. -/
  | goes (n : ℕ)
  | fails

namespace Scanner

def short (quote : Char) : Scanner := ⟨quote, [quote], true⟩

def long (quote : Char) : Scanner := ⟨quote, [quote, quote, quote], false⟩

variable (s : Scanner)

/-- The ends of line at which a text that has to stay within its line breaks off. -/
def breaks (c : Char) : Bool := s.oneLine && (c == '\n' || c == '\r')

/-- The characters that a round does not pass over. -/
def stops (c : Char) : Bool := c == s.quote || c == '\\' || s.breaks c

/-- Behind a backslash, before which `read` characters have been read. -/
def escape (read : ℕ) : List Char → Look
  | [] => .ends .unterminated
  | c :: _ => if c ∈ escapeSigns then .goes 2 else .ends (.badEscape read)

/-- At the rest of a text, before which `read` characters have been read. Where nothing else is the
case there has to be a backslash, and it fails if there is none. -/
def look (read : ℕ) : List Char → Look
  | [] => .ends .unterminated
  | c :: r =>
    if s.breaks c then .ends .unterminated
    else if s.quotes <+: c :: r then .ends (.closed read)
    else if c = s.quote then .goes 1
    else if c = '\\' then escape read r
    else .fails

def passed (rest : List Char) : List Char := rest.takeWhile (! s.stops ·)

def stop (rest : List Char) : List Char := rest.dropWhile (! s.stops ·)

/-- The loop that scans the rest of a text, before which `read` characters have been read, ends in
the given way. -/
inductive Runs : ℕ → List Char → Ending → Prop where
  | ends {read rest e} (h : s.look (read + (s.passed rest).length) (s.stop rest) = .ends e) :
      Runs read rest e
  | again {read rest n e} (h : s.look (read + (s.passed rest).length) (s.stop rest) = .goes n)
      (hrest : Runs (read + (s.passed rest).length + n) ((s.stop rest).drop n) e) :
      Runs read rest e

/-- What a look sees, with what it makes the scanner do. -/
inductive Sees (read : ℕ) : List Char → Look → Prop where
  | nothing : Sees read [] (.ends .unterminated)
  | lineEnd {c r} (h : s.breaks c = true) : Sees read (c :: r) (.ends .unterminated)
  | quotes {r} (h : s.quotes <+: r) : Sees read r (.ends (.closed read))
  | quote {r} (h : ¬ s.quotes <+: s.quote :: r) : Sees read (s.quote :: r) (.goes 1)
  | lone : Sees read ['\\'] (.ends .unterminated)
  | sign {c r} (h : c ∈ escapeSigns) : Sees read ('\\' :: c :: r) (.goes 2)
  | fault {c r} (h : c ∉ escapeSigns) : Sees read ('\\' :: c :: r) (.ends (.badEscape read))
  | other {c r} (h : s.stops c = false) : Sees read (c :: r) .fails

/-- A function that does, a character after the other, what a scanner does in rounds. -/
structure Does (f : ℕ → List Char → Ending) : Prop where
  passes : ∀ read r c, s.stops c = false → f read (c :: r) = f (read + 1) r
  nothing : ∀ read, f read [] = .unterminated
  lineEnd : ∀ read r c, s.breaks c = true → f read (c :: r) = .unterminated
  quotes : ∀ read r, s.quotes <+: r → f read r = .closed read
  quote : ∀ read r, ¬ s.quotes <+: s.quote :: r → f read (s.quote :: r) = f (read + 1) r
  lone : ∀ read, f read ['\\'] = .unterminated
  sign : ∀ read r, ∀ c ∈ escapeSigns, f read ('\\' :: c :: r) = f (read + 2) r
  fault : ∀ read r, ∀ c ∉ escapeSigns, f read ('\\' :: c :: r) = .badEscape read

/-! Every loop ends -/

variable {s} {read n : ℕ} {rest : List Char} {e : Ending} {f : ℕ → List Char → Ending}

theorem look_sees (read : ℕ) (rest : List Char) : s.Sees read rest (s.look read rest) := by
  cases rest with
  | nil => exact .nothing
  | cons c r =>
    rw [look]
    split_ifs with hbreaks hcloses hquote hback
    · exact .lineEnd hbreaks
    · exact .quotes hcloses
    · subst hquote
      exact .quote hcloses
    · subst hback
      cases r with
      | nil => exact .lone
      | cons d r =>
        rw [escape]
        split_ifs with hd
        · exact .sign hd
        · exact .fault hd
    · exact .other (by simp [stops, hbreaks, hquote, hback])

theorem look_goes (h : s.look read rest = .goes n) : rest ≠ [] ∧ 0 < n := by
  have hsees := s.look_sees read rest
  rw [h] at hsees
  cases hsees with
  | quote => exact ⟨List.cons_ne_nil _ _, by omega⟩
  | sign => exact ⟨List.cons_ne_nil _ _, by omega⟩

theorem look_stop (rest : List Char) : s.look read (s.stop rest) ≠ .fails := by
  intro h
  have hsees := s.look_sees read (s.stop rest)
  rw [h] at hsees
  generalize hstop : s.stop rest = r at hsees
  cases hsees with
  | @other c r hpass =>
    have hhead := List.head?_dropWhile_not (! s.stops ·) rest
    rw [show rest.dropWhile (! s.stops ·) = c :: r from hstop] at hhead
    simp [hpass] at hhead

theorem passed_cons (c : Char) (r : List Char) :
    s.passed (c :: r) = if s.stops c then [] else c :: s.passed r := by
  rw [passed, List.takeWhile_cons]
  cases s.stops c <;> rfl

theorem stop_cons (c : Char) (r : List Char) :
    s.stop (c :: r) = if s.stops c then c :: r else s.stop r := by
  rw [stop, List.dropWhile_cons]
  cases s.stops c <;> rfl

theorem Does.stop (hf : s.Does f) (read : ℕ) (rest : List Char) :
    f read rest = f (read + (s.passed rest).length) (s.stop rest) := by
  induction rest generalizing read with
  | nil => rfl
  | cons c r ih =>
    rw [passed_cons, stop_cons]
    by_cases hc : s.stops c = true
    · rw [if_pos hc, if_pos hc]
      rfl
    · rw [if_neg hc, if_neg hc, hf.passes _ _ _ (by simpa using hc), ih, List.length_cons]
      congr 1
      omega

theorem Does.ends (hf : s.Does f) (h : s.look read rest = .ends e) : f read rest = e := by
  have hsees := s.look_sees read rest
  rw [h] at hsees
  cases hsees with
  | nothing => exact hf.nothing read
  | lineEnd hbreaks => exact hf.lineEnd read _ _ hbreaks
  | quotes hcloses => exact hf.quotes read _ hcloses
  | lone => exact hf.lone read
  | fault hc => exact hf.fault read _ _ hc

theorem Does.again (hf : s.Does f) (h : s.look read rest = .goes n) :
    f read rest = f (read + n) (rest.drop n) := by
  have hsees := s.look_sees read rest
  rw [h] at hsees
  cases hsees with
  | quote hopen => exact hf.quote read _ hopen
  | sign hc => exact hf.sign read _ _ hc

theorem stop_length (rest : List Char) : (s.stop rest).length ≤ rest.length :=
  (List.dropWhile_sublist _).length_le

/-- A loop ends in one way, which is the one that the function gives. The induction is on the length
of the rest: a round that does not end the text reads at least one character. -/
theorem Does.runs_iff (hf : s.Does f) : s.Runs read rest e ↔ e = f read rest := by
  constructor
  · intro h
    induction h with
    | ends h => rw [hf.stop, hf.ends h]
    | again h _ ih => rw [hf.stop, hf.again h, ih]
  · intro he
    subst he
    induction hn : rest.length using Nat.strong_induction_on generalizing read rest with
    | h n ih =>
      cases hlook : s.look (read + (s.passed rest).length) (s.stop rest) with
      | ends e =>
        rw [hf.stop, hf.ends hlook]
        exact .ends hlook
      | goes m =>
        rw [hf.stop, hf.again hlook]
        apply Runs.again hlook
        apply ih _ _ rfl
        obtain ⟨hne, hm⟩ := look_goes hlook
        have hpos := List.length_pos_of_ne_nil hne
        have hle := s.stop_length rest
        rw [List.length_drop]
        omega
      | fails => exact absurd hlook (look_stop rest)

/-! The two scanners -/

section Two

variable {quote c : Char} {r : List Char}

theorem short_stops : (short quote).stops c = true ↔ c ∈ [quote, '\\', '\n', '\r'] := by
  simp [stops, breaks, short, or_assoc]

theorem long_stops : (long quote).stops c = true ↔ c = quote ∨ c = '\\' := by
  simp [stops, breaks, long]

theorem short_does (hquote : quote = '"' ∨ quote = '\'') :
    (short quote).Does (Ending.short quote) where
  nothing _ := rfl
  passes read r c hc := by
    apply short_char
    rw [← short_stops, hc]
    exact Bool.false_ne_true
  lineEnd read r c hc := by
    have hline : c = '\n' ∨ c = '\r' := by simpa [breaks, short] using hc
    have hother : c ≠ quote ∧ c ≠ '\\' := by
      rcases hline with rfl | rfl <;> rcases hquote with rfl | rfl <;> decide
    rw [Ending.short, if_neg hother.1, if_pos hline]
    · exact fun h _ => hother.2 h
    · exact fun d r h _ => hother.2 h
  quotes read r h := by
    obtain ⟨r, rfl⟩ := h
    exact short_quote (no_escape hquote)
  quote read r h := absurd ⟨r, rfl⟩ h
  lone _ := rfl
  sign read r c hc := short_escape hc
  fault read r c hc := by rw [Ending.short, if_neg fun h => hc (stringChar?_isSome_iff.mp h)]

theorem long_does (hquote : quote = '"' ∨ quote = '\'') :
    (long quote).Does (Ending.long quote) where
  nothing _ := rfl
  passes read r c hc := by
    have hother : ¬ (c = quote ∨ c = '\\') := by
      rw [← long_stops, hc]
      exact Bool.false_ne_true
    obtain ⟨hne, hback⟩ := not_or.mp hother
    exact long_char hback fun h => hne h.1
  lineEnd read r c hc := absurd hc Bool.false_ne_true
  quotes read r h := by
    obtain ⟨r, rfl⟩ := h
    exact long_quotes (no_escape hquote)
  quote read r h := by
    apply long_char (no_escape hquote)
    intro hthree
    obtain ⟨r, rfl⟩ := take_two hthree.2
    exact h ⟨r, rfl⟩
  lone _ := rfl
  sign read r c hc := long_escape hc
  fault read r c hc := by rw [Ending.long, if_neg fun h => hc (stringChar?_isSome_iff.mp h)]

end Two

end Scanner

/-! Closing quotes and backslashes -/

/-- A scanner agrees with a rule on the text with some body, of which it finds the given end: the
loop ends so and in no other way, at closing quotes if and only if the rule has a match, and then at
those that are the end of the match; and a backslash at fault is in the text. -/
structure Scanner.Agrees (s : Scanner) (rule : String) (body : List Char) (e : Ending) : Prop where
  loop : ∀ e', s.Runs s.quotes.length body e' ↔ e' = e
  closed_iff : ∀ past, (∃ k, e = .closed k) ↔
    ∃ n, table.matchAt? rule (past ++ (s.quotes ++ body)) (byteSize past) = some (some n)
  closed : ∀ past k n, e = .closed k →
    table.matchAt? rule (past ++ (s.quotes ++ body)) (byteSize past) = some (some n) →
    ∃ before after, s.quotes ++ body = before ++ s.quotes ++ after ∧ before.length = k ∧
      byteSize before + s.quotes.length = n
  backslash : ∀ k, e = .badEscape k →
    ∃ before after, s.quotes ++ body = before ++ '\\' :: after ∧ before.length = k

/-- Where the word of a rule is the quotes, a body and the quotes, a scanner agrees with the rule if
it closes behind such a body. -/
theorem Scanner.agrees_of {s : Scanner} {T : Terminal} {body : List Char} {e : Ending}
    (hT : T ∈ quoted) (hbytes : byteSize s.quotes = s.quotes.length)
    (loop : ∀ e', s.Runs s.quotes.length body e' ↔ e' = e)
    (closes : (∃ k, e = .closed k) ↔ ∃ u, u <+: s.quotes ++ body ∧ u ∈ T.words)
    (closed : ∀ u ∈ T.words, u <+: s.quotes ++ body →
      ∃ inner, u = s.quotes ++ inner ++ s.quotes ∧
        e = .closed (s.quotes.length + inner.length))
    (backslash : ∀ k, e = .badEscape k → ∃ n, k = s.quotes.length + n ∧ body[n]? = some '\\') :
    s.Agrees T.name body e where
  loop := loop
  closed_iff past := by
    rw [closes]
    simp only [matchAt?_between, Option.some.injEq, quoted_leading hT]
    constructor
    · rintro ⟨u, hu, hw⟩
      exact ⟨_, u, hu, hw, rfl⟩
    · rintro ⟨n, u, hu, hw, rfl⟩
      exact ⟨u, hu, hw⟩
  closed past k n he hn := by
    rw [matchAt?_between, Option.some.injEq, quoted_leading hT] at hn
    obtain ⟨u, hu, hw, rfl⟩ := hn
    obtain ⟨inner, rfl, hk⟩ := closed u hw hu
    obtain ⟨after, hafter⟩ := hu
    refine ⟨s.quotes ++ inner, after, hafter.symm, ?_, ?_⟩
    · rw [he] at hk
      rw [List.length_append, Ending.closed.inj hk]
    · rw [Text.byteSize_append _ s.quotes, hbytes]
  backslash k he := by
    obtain ⟨n, rfl, hn⟩ := backslash k he
    obtain ⟨hlt, hget⟩ := List.getElem?_eq_some_iff.mp hn
    refine ⟨s.quotes ++ body.take n, body.drop (n + 1), ?_, ?_⟩
    · rw [List.append_assoc, ← hget, ← List.drop_eq_getElem_cons hlt, List.take_append_drop]
    · rw [List.length_append, List.length_take_of_le hlt.le]

theorem badEscape_place {e : Ending} {opening k : ℕ} {oneLine : Bool} {body : List Char}
    (hdefect : ∀ f, e.failure? = some f → f = defectFailure opening (firstDefect oneLine body))
    (he : e = .badEscape k) : ∃ n, k = opening + n ∧ body[n]? = some '\\' := by
  subst he
  have hf := hdefect _ rfl
  cases hd : firstDefect oneLine body with
  | none =>
    rw [hd] at hf
    cases hf
  | some n =>
    rw [hd] at hf
    exact ⟨n, congrArg Failure.ahead hf, defect_backslash hd⟩

section Rules

variable {quote : Char} {S L : Terminal} (hQ : Quotes quote S L) (body : List Char)
include hQ

theorem short_agrees :
    (Scanner.short quote).Agrees (shortRule quote) body (Ending.short quote 1 body) := by
  have hquoted : S ∈ quoted := by
    apply quoted_of_head (w := [quote]) hQ.short_mem hQ.kind
    rw [hQ.short_words]
    exact mem_short.mpr ⟨[], Language.nil_mem_kstar _, rfl⟩
  rw [← hQ.short_name]
  apply Scanner.agrees_of hquoted
  · rcases hQ.kind with rfl | rfl <;> decide
  · exact fun e' => (Scanner.short_does hQ.kind).runs_iff
  · rw [hQ.short_words]
    exact short_closed_iff (no_escape hQ.kind)
  · intro u hu hprefix
    rw [hQ.short_words] at hu
    obtain ⟨inner, hinner, rfl⟩ := mem_short.mp hu
    refine ⟨inner, rfl, ?_⟩
    obtain ⟨pieces, rfl, hpieces⟩ := Language.mem_kstar.mp hinner
    obtain ⟨rest, hrest⟩ := hprefix
    have hbody : body = pieces.flatten ++ quote :: rest := by
      simpa [Scanner.short] using hrest.symm
    rw [hbody]
    exact short_complete (no_escape hQ.kind) hpieces
  · intro k hk
    exact badEscape_place (fun f => short_defect) hk

theorem long_agrees :
    (Scanner.long quote).Agrees (longRule quote) body (Ending.long quote 3 body) := by
  rw [← hQ.long_name]
  apply Scanner.agrees_of (long_quoted hQ)
  · rcases hQ.kind with rfl | rfl <;> decide
  · exact fun e' => (Scanner.long_does hQ.kind).runs_iff
  · rw [hQ.long_words]
    exact long_closed_iff (no_escape hQ.kind)
  · intro u hu hprefix
    rw [hQ.long_words] at hu
    obtain ⟨inner, hinner, rfl⟩ := mem_long.mp hu
    refine ⟨inner, rfl, ?_⟩
    obtain ⟨pieces, rfl, hpieces⟩ := Language.mem_kstar.mp hinner
    obtain ⟨rest, hrest⟩ := hprefix
    have hbody : body = pieces.flatten ++ [quote, quote, quote] ++ rest := by
      simpa [Scanner.long] using hrest.symm
    rw [hbody]
    exact long_complete (no_escape hQ.kind) hpieces
  · intro k hk
    exact badEscape_place (fun f => long_defect) hk

end Rules

/-- On every text that begins with a quote the scanner for one line ends, and on every text that
begins with three the scanner for several lines. They close if and only if the rule for such texts
has a match, at the quotes that are the end of the match, and a backslash at fault that they give is
in the text. -/
theorem scanners_agree (quote : Char) (hquote : quote = '"' ∨ quote = '\'') (body : List Char) :
    (Scanner.short quote).Agrees (shortRule quote) body (Ending.short quote 1 body) ∧
      (Scanner.long quote).Agrees (longRule quote) body (Ending.long quote 3 body) := by
  obtain ⟨S, L, hQ⟩ := quotes_of hquote
  exact ⟨short_agrees hQ body, long_agrees hQ body⟩

/-- Four quotes in a row: the first three close, and the match ends with them. -/
theorem four_quotes_close :
    ('"' = '"' ∨ '"' = '\'') ∧ Ending.long '"' 3 ['a', '"', '"', '"', '"'] = .closed 4 ∧
      (Scanner.long '"').Agrees (longRule '"') ['a', '"', '"', '"', '"'] (.closed 4) :=
  ⟨Or.inl rfl, rfl, (scanners_agree '"' (Or.inl rfl) ['a', '"', '"', '"', '"']).2⟩

end SparqlTokens.Sparql
