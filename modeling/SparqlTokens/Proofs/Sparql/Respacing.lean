import SparqlTokens.Proofs.Sparql.Blanks
import SparqlTokens.Proofs.Sparql.Composites

/-! Blanks between tokens. The tokens of a text without comments may be written with other blanks
between them, also where there were none: they are cut again, each by the same rule. Brackets could
come together only where the text has them as one token already. -/
namespace SparqlTokens.Sparql

open Terminal Scan

attribute [local irreducible] table Terminal.rule

/-- Some words, one after another, with at least one blank between two of them. -/
inductive Spaced : List (List Char) → List Char → Prop
  | none : Spaced [] []
  | one (w : List Char) : Spaced [w] w
  | more (v : List Char) {w : List Char} {ws : List (List Char)} {gap text : List Char} :
    gap ≠ [] → Blank gap → Spaced (w :: ws) text → Spaced (v :: w :: ws) (v ++ (gap ++ text))

theorem spaced_head {w text : List Char} {ws : List (List Char)} (h : Spaced (w :: ws) text) :
    w <+: text := by
  cases h with
  | one => exact List.prefix_refl w
  | more => exact List.prefix_append _ _

section Trivia

variable {settings : Settings} {rest : List Char} {k : Cut} {T : Terminal}

theorem kind_trivia {lexeme : String} {kind : Kind} (h : Kind.ofRule? T.name lexeme = some kind) :
    kind.isTrivia = true ↔ T = whitespace ∨ T = comment := by
  by_cases hp : T = punct
  · subst hp
    obtain ⟨p, _, rfl⟩ := Option.map_eq_some_iff.mp h
    exact iff_of_false (by simp [Kind.isTrivia]) (by decide)
  by_cases hi : T = ident
  · subst hi
    have hkind := Option.some.inj h
    subst hkind
    split
    · decide
    · decide
  · cases T
    all_goals first
      | exact absurd rfl hp
      | exact absurd rfl hi
      | cases h <;> decide

theorem trivia_iff (hk : table.cut settings rest = .ok k) :
    k.kind.isTrivia = true ↔ k.rule = whitespace.name ∨ k.rule = comment.name := by
  obtain ⟨T, _, _, hrule, _⟩ := cut_lexeme hk
  have hkind := Table.cut_kind hk
  rw [hrule] at hkind ⊢
  rw [kind_trivia hkind, name_injective.eq_iff, name_injective.eq_iff]

theorem shown_of_rule (hk : table.cut settings rest = .ok k) (hw : k.rule ≠ whitespace.name)
    (hc : k.rule ≠ comment.name) : k.kind.isTrivia = false := by
  apply Bool.eq_false_of_not_eq_true
  intro htrivia
  exact ((trivia_iff hk).mp htrivia).elim hw hc

theorem whitespace_blank (hk : table.cut settings rest = .ok k) (hrule : k.rule = whitespace.name) :
    Blank k.lexeme := by
  obtain ⟨T, _, _, hT, hw⟩ := cut_lexeme hk
  rw [name_injective (hT.symm.trans hrule)] at hw
  exact (mem_whitespace.mp hw).2

theorem shown_begins (hk : table.cut settings rest = .ok k) (hshown : k.kind.isTrivia ≠ true) :
    ∃ c w, k.lexeme = c :: w ∧ c ∉ [' ', '\t', '\r', '\n'] := by
  obtain ⟨T, hT, _, hrule, hw⟩ := cut_lexeme hk
  obtain ⟨c, w, hcw⟩ := List.exists_cons_of_ne_nil (Table.cut_cuts hk).1
  refine ⟨c, w, hcw, ?_⟩
  intro hc
  rw [hcw] at hw
  rw [blank_begins hT hc hw] at hrule
  exact hshown ((trivia_iff hk).mpr (Or.inl hrule))

theorem shown_not_blank (hk : table.cut settings rest = .ok k) (hshown : k.kind.isTrivia ≠ true) :
    ¬ Blank k.lexeme := by
  obtain ⟨c, w, hcw, hc⟩ := shown_begins hk hshown
  rw [hcw]
  exact fun hblank => hc (blank_cons.mp hblank).1

end Trivia

section Respacing

variable {settings other : Settings} {text joined : List Char} {k : Cut} {cs ks : List Cut}

/-- The tokens of a text less whitespace and comments. -/
def content (cs : List Cut) : List Cut := cs.filter fun c => !c.kind.isTrivia

theorem content_shown {c : Cut} (h : c.kind.isTrivia ≠ true) : content (c :: cs) = c :: content cs :=
  List.filter_cons_of_pos (by simp [h])

theorem content_trivia {c : Cut} (h : c.kind.isTrivia = true) : content (c :: cs) = content cs :=
  List.filter_cons_of_neg (by simp [h])

/-- Without comments, only blanks stand before the first token that is not whitespace. -/
theorem content_first (h : table.Splits settings text cs) (hc : ∀ c ∈ cs, c.rule ≠ comment.name)
    (hks : content cs = k :: ks) : ∃ bl y rest, Blank bl ∧ text = bl ++ (k.lexeme ++ y) ∧
      table.cut settings rest = .ok k ∧ k.kind.isTrivia ≠ true := by
  induction cs generalizing text with
  | nil => cases hks
  | cons c cs ih =>
    obtain ⟨hcut, rest, rfl, hrest⟩ := h
    obtain ⟨hc₁, hc₂⟩ := List.forall_mem_cons.mp hc
    by_cases htrivia : c.kind.isTrivia = true
    · rw [content_trivia htrivia] at hks
      obtain ⟨bl, y, r, hbl, rfl, hk⟩ := ih hrest hc₂ hks
      have hrule := ((trivia_iff hcut).mp htrivia).resolve_right hc₁
      refine ⟨c.lexeme ++ bl, y, r, blank_append.mpr ⟨whitespace_blank hcut hrule, hbl⟩, ?_, hk⟩
      rw [List.append_assoc]
    · rw [content_shown htrivia] at hks
      obtain ⟨rfl, _⟩ := List.cons.inj hks
      exact ⟨[], rest, _, blank_nil, rfl, hcut, htrivia⟩

/-- Brackets that come together with blanks between them would have been one token before. -/
theorem never_bridged (hk : table.cut settings (k.lexeme ++ text) = .ok k)
    (hs : table.Splits settings text cs) (hc : ∀ c ∈ cs, c.rule ≠ comment.name) {m : Cut}
    (hks : content cs = m :: ks) {gap rest : List Char} (hgap : Blank gap)
    (hrest : m.lexeme <+: rest) : ¬ Bridged k.lexeme (gap ++ rest) := by
  rintro ⟨p, hp, before, behind, y, hbefore, hbehind, hlexeme, hy⟩
  obtain ⟨bl, z, r, hbl, rfl, hm, hshown⟩ := content_first hs hc hks
  obtain ⟨c, w, hcw, hfirst⟩ := shown_begins hm hshown
  obtain ⟨v, rfl⟩ := hrest
  have hclosing : p.2 ∉ [' ', '\t', '\r', '\n'] := by
    have hall : ∀ p ∈ brackets, p.2 ∉ [' ', '\t', '\r', '\n'] := by decide
    exact hall p hp
  rw [hcw] at hy
  obtain ⟨_, rfl⟩ := blanks_split hgap hbehind hfirst hclosing hy
  have hword : p.1 :: (before ++ bl) ++ [p.2] ∈ (Form.inBrackets p.1 p.2).language :=
    mem_inBrackets.mpr ⟨before ++ bl, blank_append.mpr ⟨hbefore, hbl⟩, rfl⟩
  have haccepted : Accepted settings (p.1 :: (before ++ bl) ++ [p.2]) := by
    have hall : ∀ p ∈ brackets, ∃ T ∈ tokens, T ≠ comment ∧
        T.form = Form.inBrackets p.1 p.2 := by
      intro p hp
      simp only [brackets, List.mem_cons, List.not_mem_nil, or_false] at hp
      rcases hp with rfl | rfl
      · exact ⟨nil, by decide, by decide, rfl⟩
      · exact ⟨anon, by decide, by decide, rfl⟩
    obtain ⟨T, hT, hne, hform⟩ := hall p hp
    refine accepted_iff.mpr ⟨T, hT, Or.inr hne, ?_⟩
    rw [words, hform]
    exact hword
  have hstart : p.1 :: (before ++ bl) ++ [p.2] <+: k.lexeme ++ (bl ++ (m.lexeme ++ z)) := by
    rw [hlexeme, hcw]
    exact ⟨w ++ z, by simp⟩
  have hle := (cut_munched hk).longest _ hstart haccepted
  rw [hlexeme] at hle
  simp only [List.length_append, List.length_cons, List.length_nil] at hle
  omega

/-- The tokens of a text without comments are cut again where other blanks stand between them. -/
theorem splits_respaced (hcomments : other.comments = true) (h : table.Splits settings text cs)
    (hc : ∀ c ∈ cs, c.rule ≠ comment.name) (hj : Spaced ((content cs).map Cut.lexeme) joined) :
    ∃ ds, table.Splits other joined ds ∧ content ds = content cs := by
  induction cs generalizing text joined with
  | nil =>
    cases hj
    exact ⟨[], rfl, rfl⟩
  | cons c cs ih =>
    obtain ⟨hcut, rest, rfl, hrest⟩ := h
    obtain ⟨hc₁, hc₂⟩ := List.forall_mem_cons.mp hc
    by_cases htrivia : c.kind.isTrivia = true
    · rw [content_trivia htrivia] at hj ⊢
      exact ih hrest hc₂ hj
    rw [content_shown htrivia] at hj ⊢
    have hagain : table.cut other c.lexeme = .ok c := cut_again hcut hcomments
    cases hks : content cs with
    | nil =>
      rw [hks] at hj
      cases hj
      exact ⟨[c], Table.splits_single.mpr ⟨hagain, rfl⟩, content_shown htrivia⟩
    | cons m ms =>
      rw [hks] at hj
      obtain ⟨bl, y, r, _, _, hm, hshown⟩ := content_first hrest hc₂ hks
      cases hj with
      | @more _ _ _ gap tail hne hgap htail =>
        have hhead := spaced_head htail
        obtain ⟨ds, hds, hcontent⟩ := ih hrest hc₂ (by rw [hks]; exact htail)
        obtain ⟨a, w, haw, hfirst⟩ := shown_begins hm hshown
        have hblanks : table.cut other (gap ++ tail) = .ok ⟨.whitespace, "WHITESPACE", gap⟩ := by
          apply cut_blanks hne hgap
          intro e u htail'
          rw [haw, htail'] at hhead
          obtain ⟨rfl, _⟩ := List.cons_prefix_cons.mp hhead
          exact hfirst
        have hcut' : table.cut other (c.lexeme ++ (gap ++ tail)) = .ok c := by
          obtain ⟨d, gap, rfl⟩ := List.exists_cons_of_ne_nil hne
          obtain ⟨hd, hgap⟩ := blank_cons.mp hgap
          have hbridged := never_bridged hcut hrest hc₂ hks hgap hhead
          exact cut_before_blank hagain hd (shown_not_blank hcut htrivia) (Or.inr hc₁) hbridged
        refine ⟨c :: ⟨.whitespace, "WHITESPACE", gap⟩ :: ds, ?_, ?_⟩
        · exact ⟨hcut', _, rfl, hblanks, tail, rfl, hds⟩
        · rw [content_shown htrivia, content_trivia rfl, hcontent, hks]

theorem content_tokens (ts : List Token) :
    content (ts.map Token.cut) = (ts.filter fun t => !t.isTrivia).map Token.cut := List.filter_map

theorem shown_lexemes {ts : List Token} (hcuts : ts.map Token.cut = cs)
    (hc : ∀ c ∈ cs, c.kind.isTrivia = false) :
    (ts.filter fun t => !t.isTrivia).map (fun t => t.lexeme.toList) = cs.map Cut.lexeme := by
  have hcontent : content cs = cs := List.filter_eq_self.mpr fun c hmem => by rw [hc c hmem]; rfl
  rw [← hcontent, ← hcuts, content_tokens, List.map_map]
  rfl

end Respacing

/-- The tokens of a text without errors and comments, less whitespace, can be written one after
another with any blanks in the gaps between them, and reading that text gives the same tokens again,
less whitespace and their places. -/
theorem respacing_keeps_tokens (stop : Bool) (radius : ℕ) {other : Settings}
    (ho : other.comments = true) {text joined : List Char} {ts : List Token}
    (hts : table.items (everything stop radius) text = ts.map .token)
    (hc : ∀ t ∈ ts, t.rule ≠ "COMMENT")
    (hj : Spaced ((ts.filter fun t => !t.isTrivia).map fun t => t.lexeme.toList) joined) :
    ∃ us : List Token, table.items other joined = us.map .token ∧
      (us.filter fun t => !t.isTrivia).map Token.cut =
        (ts.filter fun t => !t.isTrivia).map Token.cut := by
  have hsplits : table.Splits (everything stop radius) text (ts.map Token.cut) :=
    (Table.items_splits rfl).mp ⟨ts, hts, rfl⟩
  have hrules : ∀ c ∈ ts.map Token.cut, c.rule ≠ comment.name := by
    intro c hmem
    obtain ⟨t, ht, rfl⟩ := List.mem_map.mp hmem
    exact hc t ht
  have hspaced : Spaced ((content (ts.map Token.cut)).map Cut.lexeme) joined := by
    rw [content_tokens, List.map_map]
    exact hj
  obtain ⟨ds, hds, hcontent⟩ := splits_respaced ho hsplits hrules hspaced
  obtain ⟨us, hus, hcuts⟩ := Table.items_of_splits hds
  refine ⟨us, hus, ?_⟩
  rw [← content_tokens, hcuts, ← content_tokens, ← hcontent, content, content, List.filter_filter]
  apply List.filter_congr
  intro c _
  rw [isShown]
  cases c.kind.isTrivia
  · rw [Bool.not_false, Bool.or_true, Bool.and_true]
  · rfl

open Form in
/-- A literal with its datatype, pulled apart. -/
theorem literal_pulled_apart :
    let text := ['\'', '\'', '^', '^', '<', '>']
    let joined := ['\'', '\'', ' ', '^', '^', '\n', '\t', '<', '>']
    ∃ ts : List Token, table.items (everything true 24) text = ts.map .token ∧
      (∀ t ∈ ts, t.rule ≠ "COMMENT") ∧
      Spaced ((ts.filter fun t => !t.isTrivia).map fun t => t.lexeme.toList) joined ∧
      ∃ us : List Token, table.items {} joined = us.map .token ∧
        (us.filter fun t => !t.isTrivia).map Token.cut =
          (ts.filter fun t => !t.isTrivia).map Token.cut := by
  intro text joined
  have hcomments : (everything true 24).comments = true := rfl
  have hquotes : ['\'', '\''] ∈ string.words :=
    mem_string.mpr ⟨string1, by decide, mem_short.mpr ⟨[], Language.nil_mem_kstar _, rfl⟩⟩
  have hiri : ['<', '>'] ∈ iriref.words := mem_between.mpr ⟨[], Language.nil_mem_kstar _, rfl⟩
  obtain ⟨k, hk, hlk, hrk⟩ := cut_string hcomments (v := ['^', '^', '<', '>']) hquotes
    (Or.inr ⟨'^', _, rfl, Or.inr rfl⟩)
  obtain ⟨p, hp, hlp, hrp⟩ := cut_carets hcomments (v := ['<', '>'])
  obtain ⟨i, hi, hri⟩ := splits_whole hcomments (T := iriref) (by decide) (by decide) hiri
  obtain ⟨hcut, hli⟩ := Table.splits_single.mp hi
  have hsplits : table.Splits (everything true 24) text [k, p, i] :=
    ⟨hk, _, by rw [hlk]; rfl, hp, _, by rw [hlp]; rfl, hi⟩
  have hall : ∀ c ∈ [k, p, i], c.rule ≠ comment.name ∧ c.kind.isTrivia = false := by
    have hrules : ∀ r ∈ punct.name :: iriref.name :: quoted.map name,
        r ≠ whitespace.name ∧ r ≠ comment.name := by decide
    obtain ⟨hwk, hck⟩ := hrules _ (List.mem_cons_of_mem _ (List.mem_cons_of_mem _ hrk))
    obtain ⟨hwp, hcp⟩ := hrules p.rule (hrp ▸ List.mem_cons_self)
    obtain ⟨hwi, hci⟩ := hrules i.rule (hri ▸ List.mem_cons_of_mem _ List.mem_cons_self)
    simp only [List.forall_mem_cons]
    exact ⟨⟨hck, shown_of_rule hk hwk hck⟩, ⟨hcp, shown_of_rule hp hwp hcp⟩,
      ⟨hci, shown_of_rule hcut hwi hci⟩, fun c hc => absurd hc List.not_mem_nil⟩
  obtain ⟨ts, hts, hcuts⟩ := (Table.items_splits rfl).mpr hsplits
  have hspaced : Spaced ((ts.filter fun t => !t.isTrivia).map fun t => t.lexeme.toList) joined := by
    rw [shown_lexemes hcuts fun c hc => (hall c hc).2, List.map_cons, List.map_cons, List.map_cons,
      hlk, hlp, hli]
    have hfeed : Blank ['\n', '\t'] := by decide
    have hspace : Blank [' '] := by decide
    exact .more _ (by decide) hspace (.more _ (by decide) hfeed (.one _))
  have hrules : ∀ t ∈ ts, t.rule ≠ "COMMENT" := by
    rw [← hcuts, List.forall_mem_map] at hall
    exact fun t ht => (hall t ht).1
  exact ⟨ts, hts, hrules, hspaced, respacing_keeps_tokens true 24 rfl hts hrules hspaced⟩

end SparqlTokens.Sparql
