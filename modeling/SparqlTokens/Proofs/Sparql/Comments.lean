import SparqlTokens.Proofs.Lexing.Tiling
import SparqlTokens.Proofs.Sparql.Blanks

/-! Runs without comments. Only the rule for comments has words that begin with a number sign, and
where it is left out no other rule takes its place. So a run without comments hands out what the run
with comments does, until that one comes to a comment; there it finds that no rule matches. -/
namespace SparqlTokens

def Settings.withoutComments (settings : Settings) : Settings := { settings with comments := false }

theorem Settings.admits_without {settings : Settings} {r : Rule} :
    settings.withoutComments.admits r = true ↔ r.name ≠ "COMMENT" := by
  rw [admits, withoutComments, Bool.false_or, decide_eq_true_iff]

namespace Scan

/-- The scan at the same place that cuts no comments. -/
def withoutComments (s : Scan) : Scan := { s with settings := s.settings.withoutComments }

theorem skip_without (s : Scan) (f : Failure) :
    (s.skip f).withoutComments = s.withoutComments.skip f := by
  have hstop : s.withoutComments.settings.stopOnFirstError = s.settings.stopOnFirstError := rfl
  rw [skip, skip, hstop]
  by_cases h : s.settings.stopOnFirstError = true
  · rw [if_pos h, if_pos h]
    rfl
  · rw [if_neg h, if_neg h]
    rfl

end Scan

def Item.IsComment (i : Item) : Prop := ∃ t, i = .token t ∧ t.rule = "COMMENT"

/-- An error at the start of a token, because no rule matches there. -/
structure LexicalError.InPlaceOf (e : LexicalError) (t : Token) : Prop where
  kind : e.kind = .noMatch
  offset : e.offset = t.range.start
  line : e.line = t.start.line
  column : e.column = t.start.column

/-- How a run without comments goes along with the run with them: item by item, and with an error in
place of the first comment. -/
inductive GoesAlong : List Item → List Item → Prop
  | ended : GoesAlong [] []
  | same {i : Item} {items others : List Item} (hi : ¬ i.IsComment)
      (h : GoesAlong items others) : GoesAlong (i :: items) (i :: others)
  | comment {t : Token} {e : LexicalError} {items others : List Item} (ht : t.rule = "COMMENT")
      (he : e.InPlaceOf t) : GoesAlong (.token t :: items) (.error e :: others)

namespace GoesAlong

variable {items others : List Item}

theorem all_same (h : GoesAlong items others) (hall : ∀ i ∈ items, ¬ i.IsComment) :
    others = items := by
  induction h with
  | ended => rfl
  | same _ _ ih => rw [ih fun i hi => hall i (List.mem_cons_of_mem _ hi)]
  | comment ht _ => exact absurd ⟨_, rfl, ht⟩ (hall _ List.mem_cons_self)

theorem at_comment (h : GoesAlong items others) {before behind : List Item} {t : Token}
    (hitems : items = before ++ .token t :: behind) (hbefore : ∀ i ∈ before, ¬ i.IsComment)
    (ht : t.rule = "COMMENT") :
    ∃ e rest, others = before ++ .error e :: rest ∧ e.InPlaceOf t := by
  induction before generalizing items others with
  | nil =>
    subst hitems
    cases h with
    | same hi _ => exact absurd ⟨t, rfl, ht⟩ hi
    | comment _ he => exact ⟨_, _, rfl, he⟩
  | cons i before ih =>
    subst hitems
    obtain ⟨hi, hrest⟩ := List.forall_mem_cons.mp hbefore
    cases h with
    | same _ h =>
      obtain ⟨e, rest, rfl, he⟩ := ih h rfl hrest
      exact ⟨e, rest, rfl, he⟩
    | comment hu _ => exact absurd ⟨_, rfl, hu⟩ hi

end GoesAlong

namespace Sparql

open Terminal Scan

attribute [local irreducible] table Terminal.rule

variable {settings : Settings} {rest r : List Char}

theorem stands_not_sign : ¬ Stands '#' := by
  unfold Stands
  decide

/-- Without comments, no rule matches at a number sign. -/
theorem cut_sign_without : table.cut settings.withoutComments ('#' :: r) =
    .error { kind := .noMatch } := by
  have hopens : ¬ Opens settings.withoutComments '#' r := by
    rintro (h | ⟨_, h⟩ | ⟨h, _⟩ | ⟨h, _⟩ | ⟨h, _⟩)
    · exact stands_not_sign h
    · cases h
    all_goals exact absurd h (by decide)
  refine (cut_other rfl (by decide) (by decide) (by decide)).mpr ⟨hopens, ?_⟩
  rw [unmatched_other (by decide) (by decide)]
  rfl

/-- Where the rule for comments is chosen there is a number sign, and a comment is cut. -/
theorem cut_comment (hc : settings.comments = true) {d : Candidate}
    (hs : table.select? settings.admits rest = some d) (hd : d.rule.name = "COMMENT") :
    ∃ r k, rest = '#' :: r ∧ table.cut settings rest = .ok k := by
  obtain ⟨T, _, _, hrule, hw⟩ := select?_word hs
  rw [hrule] at hd
  rw [name_comment.mp hd] at hw
  obtain ⟨v, hv⟩ := comment_head hw
  rw [hv] at hw
  obtain ⟨s, hrest⟩ := (Table.select?_cuts hs).2
  rw [hv] at hrest
  have hquote : ¬ ('#' = '"' ∨ '#' = '\'') := by decide
  have hbracket : '#' ≠ '<' := by decide
  have hadmitted : comment.Admitted settings := Or.inl hc
  obtain ⟨k, hk⟩ := cut_succeeds (v := s) (by decide) hadmitted hw (fun h => absurd h hquote)
    (fun h => absurd h hbracket)
  exact ⟨v ++ s, k, hrest.symm, hrest ▸ hk⟩

/-- Where no comment is cut, the same is cut without comments; where one is, no rule matches. -/
theorem cut_without (hc : settings.comments = true) (rest : List Char) :
    ((∀ k, table.cut settings rest = .ok k → k.rule ≠ "COMMENT") ∧
      table.cut settings.withoutComments rest = table.cut settings rest) ∨
    ∃ k, table.cut settings rest = .ok k ∧ k.rule = "COMMENT" ∧
      table.cut settings.withoutComments rest = .error { kind := .noMatch } := by
  have hfewer : ∀ r, settings.withoutComments.admits r = true → settings.admits r = true := by
    intro r _
    rw [Settings.admits, hc, Bool.true_or]
  cases hs : table.select? settings.admits rest with
  | none =>
    refine Or.inl ⟨?_, Table.cut_chosen ?_⟩
    · intro k hk
      obtain ⟨d, hd, _⟩ := Table.cut_ok hk
      rw [hs] at hd
      cases hd
    · rw [hs, Table.select?_fewer_none hfewer hs]
  | some d =>
    have hchosen : ∀ k, table.cut settings rest = .ok k → k.rule = d.rule.name := by
      intro k hk
      obtain ⟨d', hd', hrule, _⟩ := Table.cut_ok hk
      rw [hs] at hd'
      cases hd'
      exact hrule
    by_cases hd : d.rule.name = "COMMENT"
    · obtain ⟨r, k, rfl, hk⟩ := cut_comment hc hs hd
      exact Or.inr ⟨k, hk, (hchosen k hk).trans hd, cut_sign_without⟩
    · refine Or.inl ⟨?_, Table.cut_chosen ?_⟩
      · intro k hk
        rw [hchosen k hk]
        exact hd
      · rw [hs, Table.select?_fewer hfewer hs (Settings.admits_without.mpr hd)]

/-! Two runs -/

theorem cut_ahead_without {s : Scan} (ht : s.table = table) :
    s.withoutComments.table.cut s.withoutComments.settings s.withoutComments.ahead =
      table.cut s.settings.withoutComments s.ahead := by
  rw [← ht]
  rfl

theorem run_without {s : Scan} (ht : s.table = table) (hw : s.settings.emitWhitespace = true)
    (hc : s.settings.comments = true) : GoesAlong s.drain.1 s.withoutComments.drain.1 := by
  induction s using run_induction with
  | ended s hs =>
    have hs' : s.withoutComments.Ended := hs
    rw [drain_ended hs, drain_ended hs']
    exact .ended
  | token s k hs hk ih =>
    have hs' : ¬ s.withoutComments.Ended := hs
    have hw' : s.withoutComments.settings.emitWhitespace = true := hw
    rw [drain_shown hw hs hk]
    rw [ht] at hk
    rcases cut_without hc s.ahead with ⟨hno, hsame⟩ | ⟨k', hk', hrule, herror⟩
    · have hcut := (cut_ahead_without ht).trans (hsame.trans hk)
      rw [drain_shown hw' hs' hcut]
      refine .same ?_ (ih ht hw hc)
      intro hcomment
      obtain ⟨t, he, hrule⟩ := hcomment
      cases he
      exact hno k hk hrule
    · rw [hk] at hk'
      cases hk'
      rw [drain_error hs' ((cut_ahead_without ht).trans herror)]
      exact .comment hrule ⟨rfl, rfl, rfl, rfl⟩
  | error s f hs hf ih =>
    have hs' : ¬ s.withoutComments.Ended := hs
    have hkeeps := step_keeps s
    rw [step_error hf] at hkeeps
    obtain ⟨htable, hsettings⟩ := hkeeps
    rw [drain_error hs hf]
    rw [ht] at hf
    rcases cut_without hc s.ahead with ⟨_, hsame⟩ | ⟨k, hk, _⟩
    · rw [drain_error hs' ((cut_ahead_without ht).trans (hsame.trans hf))]
      refine .same ?_ ?_
      · intro hcomment
        obtain ⟨t, he, _⟩ := hcomment
        cases he
      · rw [← skip_without]
        exact ih (htable.trans ht) (hsettings ▸ hw) (hsettings ▸ hc)
    · rw [hf] at hk
      cases hk

/-- Without comments, a run that hands out whitespace gives the same items up to the first comment.
There it gives an error at the same place, and without any comment the runs are equal. -/
theorem same_until_comment {settings : Settings} (hw : settings.emitWhitespace = true)
    (hc : settings.comments = true) (text : List Char) :
    ((∀ i ∈ table.items settings text, ¬ i.IsComment) →
      table.items settings.withoutComments text = table.items settings text) ∧
    ∀ before t behind, table.items settings text = before ++ .token t :: behind →
      (∀ i ∈ before, ¬ i.IsComment) → t.rule = "COMMENT" →
      ∃ e rest, table.items settings.withoutComments text = before ++ .error e :: rest ∧
        e.InPlaceOf t := by
  have hrun : GoesAlong (table.items settings text) (table.items settings.withoutComments text) :=
    run_without (s := ofText table settings text) rfl hw hc
  refine ⟨hrun.all_same, ?_⟩
  intro before t behind hitems hbefore ht
  exact hrun.at_comment hitems hbefore ht

/-- Behind a blank, a number sign begins a comment, or there is an error. -/
theorem blank_before_comment : ∃ t e rest,
    table.items (Settings.verbose true 24).withoutComments [' ', '#'] =
      [.token t] ++ .error e :: rest ∧ t.rule = "WHITESPACE" ∧ e.kind = .noMatch := by
  have hadmitted : comment.Admitted (Settings.verbose true 24) := Or.inl rfl
  obtain ⟨k, hk, hlexeme, hrule⟩ := cut_own (by decide) hadmitted comment_word nofun
  have hblank : table.cut (Settings.verbose true 24) ([' '] ++ ['#']) =
      .ok ⟨.whitespace, "WHITESPACE", [' ']⟩ := by
    apply cut_blanks (by decide)
    · exact blank_cons.mpr ⟨by decide, blank_nil⟩
    · intro c s h
      cases h
      decide
  have hsplits : table.Splits (Settings.verbose true 24) [' ', '#']
      [⟨.whitespace, "WHITESPACE", [' ']⟩, k] :=
    ⟨hblank, ['#'], rfl, Table.splits_single.mpr ⟨hk, hlexeme⟩⟩
  obtain ⟨ts, hts, hcuts⟩ := (Table.items_splits rfl).mpr hsplits
  obtain ⟨t, us, rfl, ht, hus⟩ := List.map_eq_cons_iff.mp hcuts
  obtain ⟨u, rfl, rfl⟩ := List.map_eq_singleton_iff.mp hus
  have hfirst : t.rule = "WHITESPACE" := congrArg Cut.rule ht
  have hbefore : ∀ i ∈ [Item.token t], ¬ i.IsComment := by
    intro i hi hcomment
    obtain ⟨v, hv, hrule⟩ := hcomment
    rw [List.mem_singleton.mp hi] at hv
    cases hv
    rw [hfirst] at hrule
    exact absurd hrule (by decide)
  obtain ⟨e, rest, hitems, he⟩ := (same_until_comment rfl rfl [' ', '#']).2 [.token t] u [] hts
    hbefore hrule
  exact ⟨t, e, rest, hitems, hfirst, he.kind⟩

end Sparql

end SparqlTokens
