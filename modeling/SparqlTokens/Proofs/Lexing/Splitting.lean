import SparqlTokens.Proofs.Lexing.Runs

/-! A run without errors, for any table. If whitespace and comments are handed out, the tokens of
such a run are those that can be cut off the text one after another until nothing is left. -/
namespace SparqlTokens

/-- A token without its place. -/
def Token.cut (t : Token) : Cut where
  kind := t.kind
  rule := t.rule
  lexeme := t.lexeme.toList

namespace Table

theorem cut_kind {t : Table} {settings : Settings} {rest : List Char} {c : Cut}
    (h : t.cut settings rest = .ok c) :
    Kind.ofRule? c.rule (String.ofList c.lexeme) = some c.kind := by
  unfold cut at h
  split at h
  · cases h
  · split at h
    · cases h
    · split at h
      · next k hk =>
        cases h
        exact hk
      · cases h

theorem cut_kind_eq {t : Table} {settings : Settings} {rest : List Char} {c : Cut} {kind : Kind}
    (h : t.cut settings rest = .ok c)
    (hk : Kind.ofRule? c.rule (String.ofList c.lexeme) = some kind) : c.kind = kind :=
  Option.some.inj ((cut_kind h).symm.trans hk)

/-- A text is cut into tokens from its start to its end. -/
def Splits (t : Table) (settings : Settings) : List Char → List Cut → Prop
  | text, [] => text = []
  | text, c :: cs => t.cut settings text = .ok c ∧
      ∃ rest, text = c.lexeme ++ rest ∧ Splits t settings rest cs

theorem splits_single {t : Table} {settings : Settings} {text : List Char} {c : Cut} :
    t.Splits settings text [c] ↔ t.cut settings text = .ok c ∧ c.lexeme = text := by
  apply and_congr_right
  intro _
  constructor
  · rintro ⟨rest, htext, rfl⟩
    rw [htext, List.append_nil]
  · intro h
    exact ⟨[], by rw [h, List.append_nil], rfl⟩

theorem splits_cons {t : Table} {settings : Settings} {text : List Char} {c : Cut} {cs : List Cut} :
    t.Splits settings text (c :: cs) ↔ t.cut settings text = .ok c ∧
      t.Splits settings (text.drop c.lexeme.length) cs := by
  apply and_congr_right
  intro h
  obtain ⟨rest, hrest⟩ := (cut_cuts h).2
  rw [← hrest, List.drop_left]
  constructor
  · rintro ⟨_, heq, hcs⟩
    rwa [List.append_cancel_left heq]
  · intro hcs
    exact ⟨rest, rfl, hcs⟩

/-- Tokens that are cut one after another lead from a text to what is left of it. -/
def Leads (t : Table) (settings : Settings) : List Char → List Cut → List Char → Prop
  | text, [], rest => text = rest
  | text, c :: cs, rest => t.cut settings text = .ok c ∧
      ∃ r, text = c.lexeme ++ r ∧ Leads t settings r cs rest

theorem leads_splits {t : Table} {settings : Settings} {text : List Char} {cs : List Cut} :
    t.Leads settings text cs [] ↔ t.Splits settings text cs := by
  induction cs generalizing text with
  | nil => exact Iff.rfl
  | cons c cs ih =>
    apply and_congr_right
    intro _
    exact exists_congr fun r => and_congr_right fun _ => ih

end Table

namespace Scan

theorem placeToken_cut (s : Scan) (c : Cut) : (s.placeToken c).cut = c := by
  rw [Token.cut]
  simp only [placeToken, String.toList_ofList]

/-- The items of a run are some tokens and nothing else. -/
def Yields (s : Scan) (cs : List Cut) : Prop :=
  ∃ ts : List Token, s.drain.1 = ts.map .token ∧ ts.map Token.cut = cs

variable {s : Scan} (he : s.settings.emitWhitespace = true)

include he in
theorem drain_shown {c : Cut} (hs : ¬ s.Ended) (hc : s.table.cut s.settings s.ahead = .ok c) :
    s.drain.1 = .token (s.placeToken c) :: (s.advance c.lexeme.length).drain.1 := by
  have hshown : s.shown c = some (.token (s.placeToken c)) := by simp [shown, he]
  rw [drain_token hs hc, hshown]
  rfl

include he in
theorem yields_cons (hd : s.done = false) {c : Cut} {cs : List Cut} :
    s.Yields (c :: cs) ↔ s.table.cut s.settings s.ahead = .ok c ∧
      (s.advance c.lexeme.length).Yields cs := by
  constructor
  · rintro ⟨ts, hts, hcs⟩
    obtain ⟨t, ts, rfl, ht, hrest⟩ := List.map_eq_cons_iff.mp hcs
    have hs : ¬ s.Ended := by
      intro hend
      rw [drain_ended hend] at hts
      cases hts
    cases hcut : s.table.cut s.settings s.ahead with
    | ok d =>
      rw [drain_shown he hs hcut, List.map_cons] at hts
      obtain ⟨hfirst, hdrain⟩ := List.cons.inj hts
      rw [← Item.token.inj hfirst, placeToken_cut] at ht
      subst ht
      exact ⟨rfl, ts, hdrain, hrest⟩
    | error f =>
      rw [drain_error hs hcut] at hts
      cases hts
  · rintro ⟨hcut, ts, hts, hcs⟩
    have hs : ¬ s.Ended := by
      rintro (h | h)
      · rw [hd] at h
        cases h
      · obtain ⟨hne, hstart⟩ := Table.cut_cuts hcut
        rw [h] at hstart
        exact hne (List.prefix_nil.mp hstart)
    refine ⟨s.placeToken c :: ts, ?_, ?_⟩
    · rw [drain_shown he hs hcut, hts, List.map_cons]
    · rw [List.map_cons, placeToken_cut, hcs]

include he in
theorem yields_nothing (hd : s.done = false) : s.Yields [] ↔ s.ahead = [] := by
  constructor
  · rintro ⟨ts, hts, hnil⟩
    rw [List.map_eq_nil_iff.mp hnil] at hts
    by_contra ha
    have hs : ¬ s.Ended := by simp [Ended, hd, ha]
    cases hcut : s.table.cut s.settings s.ahead with
    | ok c =>
      rw [drain_shown he hs hcut] at hts
      cases hts
    | error f =>
      rw [drain_error hs hcut] at hts
      cases hts
  · intro ha
    exact ⟨[], drain_ended (Or.inr ha), rfl⟩

include he in
theorem yields_splits (hd : s.done = false) {cs : List Cut} :
    s.Yields cs ↔ s.table.Splits s.settings s.ahead cs := by
  induction cs generalizing s with
  | nil => exact yields_nothing he hd
  | cons c cs ih =>
    have hrest : (s.advance c.lexeme.length).Yields cs ↔ s.table.Splits s.settings
        (s.ahead.drop c.lexeme.length) cs := ih (s := s.advance c.lexeme.length) he hd
    rw [yields_cons he hd, Table.splits_cons, hrest]

/-- Whether a cut is handed out as a token under some settings. -/
def isShown (settings : Settings) (c : Cut) : Bool := settings.emitWhitespace || !c.kind.isTrivia

/-- Of the tokens that lead to a later place of a text, a run hands out those that its settings
show, and then what it does from there on. -/
theorem drain_of_leads {s : Scan} (hd : s.done = false) {cs : List Cut} {rest : List Char}
    (h : s.table.Leads s.settings s.ahead cs rest) : ∃ (ts : List Token) (u : Scan),
      s.drain.1 = ts.map .token ++ u.drain.1 ∧ ts.map Token.cut = cs.filter (isShown s.settings) ∧
        u.ahead = rest := by
  induction cs generalizing s with
  | nil => exact ⟨[], s, rfl, rfl, h⟩
  | cons c cs ih =>
    obtain ⟨hcut, r, hr, hrest⟩ := h
    have hs : ¬ s.Ended := by
      rintro (hdone | ha)
      · rw [hd] at hdone
        cases hdone
      · obtain ⟨hne, hstart⟩ := Table.cut_cuts hcut
        rw [ha] at hstart
        exact hne (List.prefix_nil.mp hstart)
    have hahead : (s.advance c.lexeme.length).ahead = r := by
      simp only [advance, hr, List.drop_left]
    obtain ⟨ts, u, hts, hcs, hu⟩ := ih (s := s.advance c.lexeme.length) hd (hahead ▸ hrest)
    have hsettings : (s.advance c.lexeme.length).settings = s.settings := rfl
    rw [hsettings] at hcs
    rw [drain_token hs hcut, hts]
    by_cases hshown : isShown s.settings c = true
    · refine ⟨s.placeToken c :: ts, u, ?_, ?_, hu⟩
      · have hitem : s.shown c = some (.token (s.placeToken c)) := if_pos hshown
        rw [hitem]
        rfl
      · rw [List.map_cons, placeToken_cut, hcs, List.filter_cons_of_pos hshown]
    · refine ⟨ts, u, ?_, ?_, hu⟩
      · have hitem : s.shown c = none := if_neg hshown
        rw [hitem]
        rfl
      · rw [hcs, List.filter_cons_of_neg hshown]

/-- Of the tokens a text is cut into, a run hands out those that its settings show. -/
theorem drain_of_splits {s : Scan} (hd : s.done = false) {cs : List Cut}
    (h : s.table.Splits s.settings s.ahead cs) : ∃ ts : List Token,
      s.drain.1 = ts.map .token ∧ ts.map Token.cut = cs.filter (isShown s.settings) := by
  obtain ⟨ts, u, hts, hcs, hu⟩ := drain_of_leads hd (Table.leads_splits.mpr h)
  rw [drain_ended (Or.inr hu), List.append_nil] at hts
  exact ⟨ts, hts, hcs⟩

end Scan

namespace Table

theorem items_of_leads {t : Table} {settings : Settings} {text rest : List Char} {cs : List Cut}
    (h : t.Leads settings text cs rest) : ∃ (ts : List Token) (more : List Item),
      t.items settings text = ts.map .token ++ more ∧
        ts.map Token.cut = cs.filter (Scan.isShown settings) := by
  obtain ⟨ts, u, hts, hcs, _⟩ := Scan.drain_of_leads (s := Scan.ofText t settings text) rfl h
  exact ⟨ts, u.drain.1, hts, hcs⟩

theorem items_of_splits {t : Table} {settings : Settings} {text : List Char} {cs : List Cut}
    (h : t.Splits settings text cs) : ∃ ts : List Token,
      t.items settings text = ts.map .token ∧ ts.map Token.cut = cs.filter (Scan.isShown settings) :=
  Scan.drain_of_splits (s := Scan.ofText t settings text) rfl h

/-- A run gives certain tokens and no error if and only if the text is cut into them. -/
theorem items_splits {t : Table} {settings : Settings}
    (he : settings.emitWhitespace = true) {text : List Char} {cs : List Cut} :
    (∃ ts : List Token, t.items settings text = ts.map .token ∧ ts.map Token.cut = cs) ↔
      t.Splits settings text cs :=
  Scan.yields_splits (s := Scan.ofText t settings text) he rfl

theorem items_single {t : Table} {settings : Settings} (he : settings.emitWhitespace = true)
    {text : List Char} {c : Cut} :
    (∃ u : Token, t.items settings text = [.token u] ∧ u.cut = c) ↔
      t.cut settings text = .ok c ∧ c.lexeme = text := by
  rw [← splits_single, ← items_splits he]
  constructor
  · rintro ⟨u, hu, hc⟩
    exact ⟨[u], hu, by rw [List.map_singleton, hc]⟩
  · rintro ⟨ts, hts, hcs⟩
    obtain ⟨u, rfl, hu⟩ := List.map_eq_singleton_iff.mp hcs
    exact ⟨u, hts, hu⟩

theorem items_of_cut {t : Table} {settings : Settings} {text : List Char} {c : Cut}
    (h : t.cut settings text = .ok c) (hlexeme : c.lexeme = text)
    (hshown : Scan.isShown settings c = true) :
    ∃ u : Token, t.items settings text = [.token u] ∧ u.cut = c := by
  obtain ⟨ts, hts, hcs⟩ := items_of_splits (splits_single.mpr ⟨h, hlexeme⟩)
  rw [List.filter_cons_of_pos hshown, List.filter_nil] at hcs
  obtain ⟨u, rfl, hu⟩ := List.map_eq_singleton_iff.mp hcs
  exact ⟨u, hts, hu⟩

end Table

end SparqlTokens
