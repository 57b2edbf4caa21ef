import SparqlTokens.Proofs.Lexing.Shifts
import SparqlTokens.Proofs.Sparql.Blanks

/-! Reading line by line. A line feed ends every token but a text in quotes that is still open, which
would be an error, and a bracket that only blanks follow. So a text without errors can be read by
itself, and what stands in the lines behind it can be read by itself too. -/
namespace SparqlTokens.Sparql

open Terminal Scan

attribute [local irreducible] table Terminal.rule

section Brackets

variable {settings : Settings} {r x : List Char} {k : Cut}

theorem bracket_heads : (brackets.all fun p => tokens.all fun S =>
    decide (S ∈ [nil, anon, punct]) || !S.form.heads.contains p.1) = true := by
  decide

theorem bracket_kinds : ∀ p ∈ brackets, ∀ kind,
    Kind.ofRule? "PUNCT" (String.ofList [p.1]) = some kind →
      kind = .punctuation .lParen ∨ kind = .punctuation .lBracket := by
  intro p hp kind hkind
  simp only [brackets, List.mem_cons, List.not_mem_nil, or_false] at hp
  rcases hp with rfl | rfl
  · cases hkind
    exact Or.inl rfl
  · cases hkind
    exact Or.inr rfl

theorem open_bracket (hk : table.cut settings r = .ok k) (hx : Bridged r x) :
    (k.kind = .punctuation .lParen ∨ k.kind = .punctuation .lBracket) ∧
      ∃ bl, Blank bl ∧ r = k.lexeme ++ bl := by
  obtain ⟨p, hp, before, _, _, hbefore, _, rfl, _⟩ := hx
  obtain ⟨T, hT, _, hrule, hw⟩ := cut_lexeme hk
  obtain ⟨hne, rest, hrest⟩ := Table.cut_cuts hk
  obtain ⟨c, w, hcw⟩ := List.exists_cons_of_ne_nil hne
  rw [hcw] at hrest hw
  obtain ⟨rfl, rfl⟩ := List.cons.inj hrest
  obtain ⟨hblank, hrestblank⟩ := blank_append.mp hbefore
  -- a closing bracket is no blank
  have unclosed : ∀ q ∈ brackets, p.1 :: w ∉ (Form.inBrackets q.1 q.2).language := by
    intro q hq hmem
    obtain ⟨bl, _, heq⟩ := mem_inBrackets.mp hmem
    have hclosing : q.2 ∈ w := by
      rw [(List.cons.inj heq).2]
      exact List.mem_append_right bl List.mem_cons_self
    have hall : ∀ q ∈ brackets, q.2 ∉ [' ', '\t', '\r', '\n'] := by decide
    exact hall q hq (hblank q.2 hclosing)
  have honly : T ∈ [nil, anon, punct] :=
    begins_among (List.all_eq_true.mp bracket_heads p hp) hT hw
  simp only [List.mem_cons, List.not_mem_nil, or_false] at honly
  rcases honly with rfl | rfl | rfl
  · exact absurd hw (unclosed ('(', ')') (by decide))
  · exact absurd hw (unclosed ('[', ']') (by decide))
  · have hsingle : w = [] := by
      rcases mem_punct.mp hw with hpair | ⟨d, _, heq⟩
      · have hnone : ∀ q ∈ brackets, ∀ u ∈ [['^', '^'], ['|', '|'], ['&', '&'], ['!', '='],
            ['<', '='], ['>', '=']], u.head? ≠ some q.1 := by decide
        exact absurd rfl (hnone p hp _ hpair)
      · exact (List.cons.inj heq).2
    subst hsingle
    have hkind := Table.cut_kind hk
    rw [hrule, hcw] at hkind
    refine ⟨bracket_kinds p hp k.kind hkind, rest, hrestblank, ?_⟩
    rw [hcw]
    rfl

end Brackets

section Lines

variable {s : Scan}

theorem advance_zero (s : Scan) : s.advance 0 = s := rfl

theorem blanks_first (r : List Char) : ∃ bl t, r = bl ++ t ∧ Blank bl ∧
    ∀ c u, t = c :: u → c ∉ [' ', '\t', '\r', '\n'] := by
  induction r with
  | nil => exact ⟨[], [], rfl, blank_nil, fun c u h => by cases h⟩
  | cons c r ih =>
    by_cases hc : c ∈ [' ', '\t', '\r', '\n']
    · obtain ⟨bl, t, rfl, hbl, ht⟩ := ih
      exact ⟨c :: bl, t, rfl, blank_cons.mpr ⟨hc, hbl⟩, ht⟩
    · refine ⟨[], c :: r, rfl, blank_nil, ?_⟩
      intro d u h
      rwa [← (List.cons.inj h).1]

theorem drain_whitespace (ht : s.table = table) (he : s.settings.emitWhitespace = false)
    {bl r : List Char} (ha : s.ahead = bl ++ r) (hbl : Blank bl)
    (hr : ∀ c u, r = c :: u → c ∉ [' ', '\t', '\r', '\n']) :
    s.drain.1 = (s.advance bl.length).drain.1 := by
  by_cases hnil : bl = []
  · rw [hnil, List.length_nil, advance_zero]
  by_cases hd : s.done = true
  · have hadvanced : (s.advance bl.length).Ended := Or.inl hd
    rw [drain_ended (Or.inl hd), drain_ended hadvanced]
  · have hs : ¬ s.Ended := by
      rintro (h | h)
      · exact hd h
      · rw [ha] at h
        exact hnil (List.append_eq_nil_iff.mp h).1
    have hcut : s.table.cut s.settings s.ahead = .ok ⟨.whitespace, "WHITESPACE", bl⟩ := by
      rw [ht, ha]
      exact cut_blanks hnil hbl hr
    have hshown : s.shown ⟨.whitespace, "WHITESPACE", bl⟩ = none := by
      rw [shown, he]
      rfl
    rw [drain_token hs hcut, hshown]
    rfl

/-- Blanks that are not handed out may be left out, be they all that stand there or not. -/
theorem drain_blanks (ht : s.table = table) (he : s.settings.emitWhitespace = false)
    {bl r : List Char} (ha : s.ahead = bl ++ r) (hbl : Blank bl) :
    s.drain.1 = (s.advance bl.length).drain.1 := by
  obtain ⟨bl', t, rfl, hbl', hfirst⟩ := blanks_first r
  have hall : s.ahead = (bl ++ bl') ++ t := by rw [ha, List.append_assoc]
  have hrest : (s.advance bl.length).ahead = bl' ++ t := by
    simp only [advance, ha, List.drop_left]
  have hrun := drain_whitespace (s := s.advance bl.length) ht he hrest hbl' hfirst
  rw [drain_whitespace ht he hall (blank_append.mpr ⟨hbl, hbl'⟩) hfirst, hrun, advance_advance,
    List.length_append]

theorem drain_only_blanks (ht : s.table = table) (he : s.settings.emitWhitespace = false)
    (ha : Blank s.ahead) : s.drain.1 = [] := by
  rw [drain_blanks ht he (List.append_nil s.ahead).symm ha]
  apply drain_ended
  exact Or.inr (List.drop_length)

theorem drain_bridged (ht : s.table = table) (he : s.settings.emitWhitespace = false)
    (hs : ¬ s.Ended) {c : Cut} (hc : s.table.cut s.settings s.ahead = .ok c) {x : List Char}
    (hx : Bridged s.ahead x) : ∃ t, s.drain.1 = [.token t] ∧
      (t.kind = .punctuation .lParen ∨ t.kind = .punctuation .lBracket) := by
  have hcut := hc
  rw [ht] at hcut
  obtain ⟨hkind, bl, hbl, hsplit⟩ := open_bracket hcut hx
  have hahead : (s.advance c.lexeme.length).ahead = bl := by
    simp only [advance, hsplit, List.drop_left]
  have hrest : (s.advance c.lexeme.length).drain.1 = [] :=
    drain_only_blanks (s := s.advance c.lexeme.length) ht he (hahead ▸ hbl)
  have hshown : s.shown c = some (.token (s.placeToken c)) := by
    rcases hkind with hkind | hkind
    · simp [shown, hkind, Kind.isTrivia]
    · simp [shown, hkind, Kind.isTrivia]
  refine ⟨s.placeToken c, ?_, hkind⟩
  rw [drain_token hs hc, hrest, hshown]
  rfl

theorem drain_seam (ht : s.table = table) (he : s.settings.emitWhitespace = false)
    (ha : Blank s.ahead) (b : List Char) : (s.followed ('\n' :: b)).drain.1 =
      ((s.followed ('\n' :: b)).advance (s.ahead.length + 1)).drain.1 := by
  have hahead : (s.followed ('\n' :: b)).ahead = (s.ahead ++ ['\n']) ++ b := by
    simp [followed]
  have hblank : Blank (s.ahead ++ ['\n']) := blank_append.mpr ⟨ha, by decide⟩
  rw [drain_blanks (s := s.followed ('\n' :: b)) ht he hahead hblank, List.length_append]
  rfl

theorem cut_followed (ht : s.table = table) {c : Cut}
    (hc : s.table.cut s.settings s.ahead = .ok c) (hblank : ¬ Blank s.ahead) {b : List Char}
    (hx : ¬ Bridged s.ahead b) : (s.followed ('\n' :: b)).table.cut (s.followed ('\n' :: b)).settings
      (s.followed ('\n' :: b)).ahead = .ok c := by
  rw [ht] at hc
  have hsame := cut_before_blank hc (by decide) hblank (Or.inl rfl) hx
  rw [← ht] at hsame
  exact hsame

/-- A text may be read without what stands in the lines behind it, if that gives no error and does
not end with an opening bracket. -/
theorem drain_line (s : Scan) (ht : s.table = table) (he : s.settings.emitWhitespace = false)
    (hd : s.done = false) (hok : ∀ e, .error e ∉ s.drain.1)
    (hlast : ∀ t, s.drain.1.getLast? = some (.token t) →
      t.kind ≠ .punctuation .lParen ∧ t.kind ≠ .punctuation .lBracket) (b : List Char) :
    (s.followed ('\n' :: b)).drain.1 = s.drain.1 ++
      ((s.followed ('\n' :: b)).advance (s.ahead.length + 1)).drain.1 := by
  induction s using run_induction with
  | ended s h =>
    have ha : s.ahead = [] := h.resolve_left (by simp [hd])
    rw [drain_ended h, List.nil_append]
    exact drain_seam ht he (ha ▸ blank_nil) b
  | token s c h hc ih =>
    by_cases hblank : Blank s.ahead
    · rw [drain_only_blanks ht he hblank, List.nil_append]
      exact drain_seam ht he hblank b
    have hdrain := drain_token h hc
    have hle : c.lexeme.length ≤ s.ahead.length := (Table.cut_cuts hc).2.length_le
    by_cases hx : Bridged s.ahead b
    · obtain ⟨t, hdrain, hkind⟩ := drain_bridged ht he h hc hx
      rw [hdrain] at hlast
      obtain ⟨hparen, hbracket⟩ := hlast t rfl
      exact absurd hkind (not_or.mpr ⟨hparen, hbracket⟩)
    · have hfollowed := cut_followed ht hc hblank hx
      have hgoes : ¬ (s.followed ('\n' :: b)).Ended := by
        rintro (h' | h')
        · exact h (Or.inl h')
        · simp [followed] at h'
      have htail := ih ht he hd ?_ ?_
      · have hshown : (s.followed ('\n' :: b)).shown c = s.shown c := rfl
        rw [drain_token hgoes hfollowed, hshown, followed_advance hle, htail, hdrain,
          List.append_assoc, ← followed_advance hle, advance_advance]
        have hlength : (s.advance c.lexeme.length).ahead.length =
            s.ahead.length - c.lexeme.length := List.length_drop
        have hsum : c.lexeme.length + (s.ahead.length - c.lexeme.length + 1) =
            s.ahead.length + 1 := by omega
        rw [hlength, hsum]
      · intro e herror
        exact hok e (hdrain ▸ List.mem_append_right _ herror)
      · intro t hlast'
        apply hlast t
        rw [hdrain, List.getLast?_append, hlast']
        rfl
  | error s f h hc _ =>
    rw [drain_error h hc] at hok
    exact absurd List.mem_cons_self (hok _)

end Lines

/-- Whatever stands in the lines behind a text, the text is read as it is by itself, and they are
read as they are by themselves, further on by its bytes and lines: if whitespace and comments are not
handed out, and the text by itself gives no error and does not end with an opening bracket. -/
theorem lines_compose (settings : Settings) (he : settings.emitWhitespace = false)
    (a b : List Char) (hok : ∀ e, .error e ∉ table.items settings a)
    (hlast : ∀ t, (table.items settings a).getLast? = some (.token t) →
      t.kind ≠ .punctuation .lParen ∧ t.kind ≠ .punctuation .lBracket) :
    table.items settings (a ++ '\n' :: b) = table.items settings a ++
      (table.items settings b).map (Item.shift (Text.byteSize a + 1) (a.count '\n' + 1)) := by
  have hline := drain_line (ofText table settings a) rfl he rfl hok hlast b
  have hrest : ((ofText table settings a).followed ('\n' :: b)).advance
      ((ofText table settings a).ahead.length + 1) = _ := followed_line table settings a b
  rw [hrest, behind_drain] at hline
  exact hline

/-- A text in three quotes that goes over two lines, before a text in quotes that is not closed. -/
theorem error_behind_two_lines :
    let a := ['\'', '\'', '\'', '\n', '\'', '\'', '\'']
    let b := [' ', '"', 'x']
    (∀ e, .error e ∉ table.items {} a) ∧
    (∀ t, (table.items {} a).getLast? = some (.token t) →
      t.kind ≠ .punctuation .lParen ∧ t.kind ≠ .punctuation .lBracket) ∧
    table.items {} (a ++ '\n' :: b) =
      table.items {} a ++ (table.items {} b).map (Item.shift 8 2) := by
  intro a b
  have hfeed : ['\n'] ∈ (Form.longPart '\'').language :=
    mem_longPart.mpr ⟨['\n'], mem_charUnless.mpr (Or.inl ⟨'\n', by decide, rfl⟩), Or.inl rfl⟩
  have hbody : ['\n'] ∈ KStar.kstar (Form.longPart '\'').language :=
    Language.mem_kstar.mpr ⟨[['\n']], rfl, List.forall_mem_singleton.mpr hfeed⟩
  have hword : a ∈ stringLong1.words := mem_long.mpr ⟨['\n'], hbody, rfl⟩
  have hadmitted : stringLong1.Admitted {} := Or.inl rfl
  obtain ⟨t, ht, _, _, hkind⟩ := read_word (by decide) hadmitted hword nofun rfl rfl
  have hok : ∀ e, .error e ∉ table.items {} a := by
    intro e he
    rw [ht] at he
    cases List.mem_singleton.mp he
  have hlast : ∀ t, (table.items {} a).getLast? = some (.token t) →
      t.kind ≠ .punctuation .lParen ∧ t.kind ≠ .punctuation .lBracket := by
    intro u hu
    rw [ht] at hu
    cases hu
    rw [hkind]
    decide
  exact ⟨hok, hlast, lines_compose {} rfl a b hok hlast⟩

end SparqlTokens.Sparql
