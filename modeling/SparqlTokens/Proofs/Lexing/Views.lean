import SparqlTokens.Proofs.Lexing.Runs
import SparqlTokens.Proofs.Lexing.Tiling

/-! The settings of a run only choose what is seen of it. What is cut from a text depends on the
table and on whether comments are cut, so a run goes through the same places as the run that hands
out everything and goes on behind errors, until an error stops it. -/
namespace SparqlTokens

namespace Item

def isTrivia : Item → Bool
  | token t => t.kind = .whitespace ∨ t.kind = .comment
  | error _ => false

/-- The items up to the first error, and that error. -/
def upToError : List Item → List Item
  | [] => []
  | token t :: items => token t :: upToError items
  | error e :: _ => [error e]

/-- An item without the piece of text that an error quotes. -/
def withoutSnippet : Item → Item
  | token t => token t
  | error e => error { e with snippet := "" }

theorem isTrivia_token (t : Token) : (token t).isTrivia = t.kind.isTrivia := by
  cases h : t.kind <;> simp [isTrivia, Kind.isTrivia, h]

end Item

namespace Settings

/-- What is seen under some settings of a run that hands out everything. -/
def view (settings : Settings) (items : List Item) : List Item :=
  (if settings.stopOnFirstError then Item.upToError items else items).filter fun i =>
    settings.emitWhitespace || !i.isTrivia

theorem view_token (settings : Settings) (t : Token) (items : List Item) :
    settings.view (.token t :: items) =
      (if settings.emitWhitespace || !t.kind.isTrivia then [Item.token t] else []) ++
        settings.view items := by
  unfold view
  split
  · rw [Item.upToError, List.filter_cons, Item.isTrivia_token]
    split <;> rfl
  · rw [List.filter_cons, Item.isTrivia_token]
    split <;> rfl

theorem view_error (settings : Settings) (e : LexicalError) (items : List Item) :
    settings.view (.error e :: items) =
      .error e :: if settings.stopOnFirstError then [] else settings.view items := by
  have hseen : (settings.emitWhitespace || !(Item.error e).isTrivia) = true := by
    simp [Item.isTrivia]
  unfold view
  split
  · rw [Item.upToError, List.filter_cons, if_pos hseen]
    rfl
  · rw [List.filter_cons, if_pos hseen]

end Settings

/-- Of the settings, what is cut depends only on whether comments are. -/
theorem Table.cut_settings (t : Table) {settings other : Settings}
    (h : settings.comments = other.comments) (rest : List Char) :
    t.cut settings rest = t.cut other rest := by
  have hadmits : settings.admits = other.admits := by
    funext r
    rw [Settings.admits, Settings.admits, h]
  rw [cut, cut, hadmits]

namespace Scan

/-- The scan at the same place that hands out everything and goes on behind errors. -/
def verbose (s : Scan) : Scan :=
  { s with settings := Settings.verbose s.settings.comments s.settings.snippetRadius }

def withRadius (s : Scan) (radius : ℕ) : Scan :=
  { s with settings := { s.settings with snippetRadius := radius } }

/-- From any place on, a run hands out what its settings let through of the verbose run. -/
theorem drain_view (s : Scan) (hs : s.done = false) :
    s.drain.1 = s.settings.view s.verbose.drain.1 := by
  have hcut : ∀ s : Scan, s.verbose.table.cut s.verbose.settings s.verbose.ahead =
      s.table.cut s.settings s.ahead := fun s => s.table.cut_settings rfl s.ahead
  induction s using run_induction with
  | ended s h =>
    have hv : s.verbose.Ended := h
    rw [drain_ended h, drain_ended hv, Settings.view]
    split <;> rfl
  | token s c h hc ih =>
    have hv : ¬ s.verbose.Ended := h
    have hrest : s.settings.view (s.verbose.advance c.lexeme.length).drain.1 =
        (s.advance c.lexeme.length).drain.1 := (ih hs).symm
    have hall : s.verbose.shown c = some (.token (s.placeToken c)) := rfl
    rw [drain_token h hc, drain_token hv ((hcut s).trans hc), hall, Option.toList_some,
      List.singleton_append, Settings.view_token, hrest, shown]
    congr 1
    exact apply_ite Option.toList _ _ _
  | error s f h hc ih =>
    have hv : ¬ s.verbose.Ended := h
    have herror : s.verbose.placeError f = s.placeError f := rfl
    rw [drain_error h hc, drain_error hv ((hcut s).trans hc), herror, Settings.view_error]
    congr 1
    by_cases hstop : s.settings.stopOnFirstError = true
    · rw [if_pos hstop, skip, if_pos hstop]
      exact drain_ended (Or.inl rfl)
    · have hskip : s.skip f = s.advance (f.ahead + 1) := if_neg hstop
      rw [hskip] at ih ⊢
      rw [if_neg hstop]
      exact ih hs

/-- Two runs that quote text of different lengths around errors are otherwise the same. -/
theorem drain_radius (s : Scan) (radius : ℕ) :
    (s.withRadius radius).drain.1.map Item.withoutSnippet =
      s.drain.1.map Item.withoutSnippet := by
  have hcut : ∀ s : Scan, (s.withRadius radius).table.cut (s.withRadius radius).settings
      (s.withRadius radius).ahead = s.table.cut s.settings s.ahead :=
    fun s => s.table.cut_settings rfl s.ahead
  induction s using run_induction with
  | ended s h =>
    have hr : (s.withRadius radius).Ended := h
    rw [drain_ended h, drain_ended hr]
  | token s c h hc ih =>
    have hr : ¬ (s.withRadius radius).Ended := h
    rw [drain_token h hc, drain_token hr ((hcut s).trans hc), List.map_append, List.map_append,
      ← ih]
    rfl
  | error s f h hc ih =>
    have hr : ¬ (s.withRadius radius).Ended := h
    have hskip : (s.withRadius radius).skip f = (s.skip f).withRadius radius := by
      unfold skip
      split <;> split <;> first | rfl | contradiction
    rw [drain_error h hc, drain_error hr ((hcut s).trans hc), List.map_cons, List.map_cons, ← ih,
      hskip]
    rfl

end Scan

/-- For any table, a run is the run that hands out everything and goes on behind errors, cut after
its first error if errors stop it, and without whitespace and comments if these are not handed out.
How much text is quoted around an error changes nothing else. -/
theorem runs_are_views (t : Table) (settings : Settings) (text : List Char) :
    t.items settings text = settings.view
        (t.items (Settings.verbose settings.comments settings.snippetRadius) text) ∧
      ∀ radius, (t.items { settings with snippetRadius := radius } text).map Item.withoutSnippet =
        (t.items settings text).map Item.withoutSnippet :=
  ⟨Scan.drain_view (Scan.ofText t settings text) rfl,
    Scan.drain_radius (Scan.ofText t settings text)⟩

end SparqlTokens
