import SparqlTokens.Proofs.Pattern.Reading

/-! The courses that a walk over residuals finds. Residuals are the nodes of a graph whose edges are
the moves that read nothing; a walk visits each node once, and the order in which it does is that of
preference. Whatever the order, the courses found are those of the nodes that can be reached: the
walk invents none, and cutting off a second visit loses none. -/
namespace SparqlTokens.Pattern

open Reading

/-- A move that reads nothing, before the next character. -/
inductive Edge (atStart : Bool) (next : Option Char) : Residual → Residual → Prop
  | empty {k} : Edge atStart next (empty :: k) k
  | textStart {k} (h : atStart = true) : Edge atStart next (textStart :: k) k
  | textEnd {k} (h : next = none) : Edge atStart next (textEnd :: k) k
  | cat {p q k} : Edge atStart next (cat p q :: k) (p :: q :: k)
  | first {place p q k} : Edge atStart next (either place p q :: k) (p :: k)
  | second {place p q k} : Edge atStart next (either place p q :: k) (q :: k)
  | round {place greedy p k} :
      Edge atStart next (again place greedy p :: k) (p :: again place greedy p :: k)
  | leave {place greedy p k} : Edge atStart next (again place greedy p :: k) k
  | timesZero {p k} : Edge atStart next (times 0 p :: k) k
  | timesSucc {n p k} : Edge atStart next (times (n + 1) p :: k) (p :: times n p :: k)
  | upToLeave {place greedy n p k} : Edge atStart next (upTo place greedy n p :: k) k
  | upToRound {place greedy n p k} :
      Edge atStart next (upTo place greedy (n + 1) p :: k) (p :: upTo place greedy n p :: k)

inductive Reach (atStart : Bool) (next : Option Char) : Residual → Residual → Prop
  | refl {r} : Reach atStart next r r
  | head {r s t} : Edge atStart next r s → Reach atStart next s t → Reach atStart next r t

/-- A course that a residual opens by itself. -/
inductive Opens (next : Option Char) : Residual → Course → Prop
  | stop : Opens next [] .stop
  | rest {place s k c} (hn : next = some c) (hc : c ∈ s) : Opens next (set place s :: k) (.rest k)

variable {b : Bool} {next : Option Char}

theorem Reach.trans {r s t : Residual} (h : Reach b next r s) (h' : Reach b next s t) :
    Reach b next r t := by
  induction h with
  | refl => exact h'
  | head e _ ih => exact .head e (ih h')

theorem Edge.reach {r s : Residual} (h : Edge b next r s) : Reach b next r s := .head h .refl

/-! Moves and readings -/

theorem edge_reading {r s : Residual} {w rest : List Char} (h : Edge b (w ++ rest).head? r s)
    (hs : Residual.reading s b w rest) : Residual.reading r b w rest := by
  generalize hn : (w ++ rest).head? = next at h
  cases h with
  | empty => simpa [Residual.reading, reading] using hs
  | textStart hb => exact ⟨[], w, rfl, ⟨rfl, hb⟩, by simpa using hs⟩
  | textEnd he =>
    have hw : w = [] ∧ rest = [] := by simpa [he] using hn
    obtain ⟨rfl, rfl⟩ := hw
    exact ⟨[], [], rfl, ⟨rfl, rfl⟩, by simpa using hs⟩
  | cat => simpa only [Residual.reading, reading, andThen_assoc] using hs
  | first => rw [Residual.reading, reading, orElse_andThen]; exact Or.inl hs
  | second => rw [Residual.reading, reading, orElse_andThen]; exact Or.inr hs
  | @round place greedy p k =>
    rw [Residual.reading, reading, ← between_unfold, orElse_andThen, andThen_assoc]
    exact Or.inl hs
  | leave =>
    rw [Residual.reading, reading, ← between_unfold, orElse_andThen, nothing_andThen]
    exact Or.inr hs
  | timesZero => simpa [Residual.reading, reading, rounds] using hs
  | timesSucc => simpa only [Residual.reading, reading, rounds, andThen_assoc] using hs
  | upToLeave => exact ⟨[], w, rfl, ⟨0, le_rfl, fun m _ => Nat.zero_le m, rfl⟩, by simpa using hs⟩
  | @upToRound place greedy n p k =>
    obtain ⟨u, v, rfl, hu, v₁, v₂, rfl, ⟨m, _, hm, hv₁⟩, hv₂⟩ := hs
    refine ⟨u ++ v₁, v₂, (List.append_assoc u v₁ v₂).symm, ⟨m + 1, Nat.zero_le _, ?_, ?_⟩, ?_⟩
    · intro a ha
      cases ha
      exact Nat.succ_le_succ (hm n rfl)
    · exact ⟨u, v₁, rfl, by rwa [List.append_assoc] at hu, hv₁⟩
    · rwa [isEmpty_append, ← Bool.and_assoc]

theorem reach_reading {r s : Residual} {w rest : List Char} (h : Reach b (w ++ rest).head? r s)
    (hs : Residual.reading s b w rest) : Residual.reading r b w rest := by
  generalize hn : (w ++ rest).head? = next at h
  induction h with
  | refl => exact hs
  | head e _ ih => exact edge_reading (hn ▸ e) (ih hs)

/-- How a residual begins to read: it moves to `k` if it reads nothing, and to a set of the next
character with `l` left before `k` if it reads `u` behind that. -/
def Begins (b : Bool) (r k : Residual) (w rest : List Char) : Prop :=
  match w with
  | [] => Reach b rest.head? r k
  | c :: u => ∃ place s l, Reach b (some c) r (set place s :: (l ++ k)) ∧ c ∈ s ∧
      Residual.reading l false u rest

theorem begins_edge {r s k : Residual} {w rest : List Char} (e : Edge b (w ++ rest).head? r s)
    (h : Begins b s k w rest) : Begins b r k w rest := by
  cases w with
  | nil => exact .head e h
  | cons c u =>
    obtain ⟨place, t, l, hr, hc, hl⟩ := h
    exact ⟨place, t, l, .head e hr, hc, hl⟩

theorem begins_andThen {r k m : Residual} {u v rest : List Char}
    (hu : Begins b r k u (v ++ rest)) (hk : u = [] → Begins b k m v rest)
    (hread : u ≠ [] → ∃ l, k = l ++ m ∧ Residual.reading l false v rest) :
    Begins b r m (u ++ v) rest := by
  cases u with
  | nil =>
    have hm := hk rfl
    cases v with
    | nil => exact Reach.trans hu hm
    | cons c v =>
      obtain ⟨place, s, l, hr, hc, hl⟩ := hm
      exact ⟨place, s, l, Reach.trans hu hr, hc, hl⟩
  | cons c u =>
    obtain ⟨place, s, l, hr, hc, hl⟩ := hu
    obtain ⟨l', rfl, hl'⟩ := hread (List.cons_ne_nil c u)
    refine ⟨place, s, l ++ l', by rwa [List.append_assoc], hc, ?_⟩
    rw [Residual.reading_append]
    exact ⟨u, v, rfl, hl, hl'⟩

theorem not_at_start (b : Bool) {u : List Char} (h : u ≠ []) : (b && u.isEmpty) = false := by
  cases u with
  | nil => exact absurd rfl h
  | cons => exact Bool.and_false b

theorem reading_single (p : Pattern) : Residual.reading [p] = p.reading := by
  rw [Residual.reading, Residual.reading, andThen_nothing]

theorem begins_behind {r k : Residual} {q : Pattern} {u v rest : List Char}
    (hu : Begins b r (q :: k) u (v ++ rest)) (hv : q.reading (b && u.isEmpty) v rest)
    (hq : u = [] → Begins b (q :: k) k v rest) : Begins b r k (u ++ v) rest := by
  refine begins_andThen hu hq fun hne => ⟨[q], rfl, ?_⟩
  rw [reading_single]
  rwa [not_at_start b hne] at hv

/-- A pattern that reads a text begins to read it in the graph. Rounds that read nothing are left
out on the way. -/
theorem reading_begins (p : Pattern) {b : Bool} (k : Residual) {w rest : List Char}
    (h : p.reading b w rest) : Begins b (p :: k) k w rest := by
  induction p generalizing b k w rest with
  | empty => cases h; exact Edge.empty.reach
  | set place s =>
    obtain ⟨c, hc, rfl⟩ := h
    exact ⟨place, s, [], .refl, hc, rfl⟩
  | textStart =>
    obtain ⟨rfl, hb⟩ := h
    exact (Edge.textStart hb).reach
  | textEnd =>
    obtain ⟨rfl, rfl⟩ := h
    exact (Edge.textEnd rfl).reach
  | cat p q hp hq =>
    obtain ⟨u, v, rfl, hu, hv⟩ := h
    apply begins_edge Edge.cat
    apply begins_behind (hp (q :: k) hu) hv
    rintro rfl
    exact hq k (by simpa using hv)
  | either place p q hp hq =>
    rcases h with h | h
    · exact begins_edge Edge.first (hp k h)
    · exact begins_edge Edge.second (hq k h)
  | again place greedy p ih =>
    obtain ⟨n, hl, hm, h⟩ := h
    clear hl hm
    induction n generalizing b w with
    | zero => cases h; exact Edge.leave.reach
    | succ n more =>
      obtain ⟨u, v, rfl, hu, hv⟩ := h
      by_cases hne : u = []
      · subst hne
        rw [List.isEmpty_nil, Bool.and_true] at hv
        exact more hv
      · apply begins_edge Edge.round
        have hread : (again place greedy p).reading (b && u.isEmpty) v rest :=
          ⟨n, Nat.zero_le n, fun m hm => (by cases hm), hv⟩
        exact begins_behind (ih _ hu) hread fun he => absurd he hne
  | times n p ih =>
    induction n generalizing b w with
    | zero => cases h; exact Edge.timesZero.reach
    | succ n more =>
      obtain ⟨u, v, rfl, hu, hv⟩ := h
      apply begins_edge Edge.timesSucc
      have hread : (times n p).reading (b && u.isEmpty) v rest := hv
      apply begins_behind (ih _ hu) hread
      rintro rfl
      rw [List.isEmpty_nil, Bool.and_true] at hv
      exact more hv
  | upTo place greedy n p ih =>
    obtain ⟨m, hl, hm, h⟩ := h
    have hle := hm n rfl
    clear hl hm
    induction m generalizing n b w with
    | zero => cases h; exact Edge.upToLeave.reach
    | succ m more =>
      obtain ⟨n, rfl⟩ : ∃ a, n = a + 1 := ⟨n - 1, by omega⟩
      obtain ⟨u, v, rfl, hu, hv⟩ := h
      apply begins_edge Edge.upToRound
      have hread : (upTo place greedy n p).reading (b && u.isEmpty) v rest :=
        ⟨m, Nat.zero_le m, fun a ha => (by cases ha; omega), hv⟩
      apply begins_behind (ih _ hu) hread
      rintro rfl
      rw [List.isEmpty_nil, Bool.and_true] at hv
      exact more n hv (by omega)

theorem residual_begins {r : Residual} {w rest : List Char} (h : Residual.reading r b w rest) :
    Begins b r [] w rest := by
  induction r generalizing b w with
  | nil => cases h; exact .refl
  | cons p k ih =>
    obtain ⟨u, v, rfl, hu, hv⟩ := h
    refine begins_andThen (reading_begins p k hu) ?_ ?_
    · rintro rfl
      exact ih (by simpa using hv)
    · intro hne
      have hf := not_at_start b hne
      exact ⟨k, (List.append_nil k).symm, by rwa [hf] at hv⟩

/-- A residual opens a course if it reaches one that does. -/
def Leads (b : Bool) (next : Option Char) (r : Residual) (c : Course) : Prop :=
  ∃ s, Reach b next r s ∧ Opens next s c

theorem reads_nothing_iff {r : Residual} {rest : List Char} :
    Residual.reading r b [] rest ↔ Leads b rest.head? r .stop := by
  constructor
  · intro h
    exact ⟨[], residual_begins h, .stop⟩
  · rintro ⟨s, hr, hs⟩
    cases hs
    exact reach_reading hr rfl

theorem reads_char_iff {r : Residual} {c : Char} {w rest : List Char} :
    Residual.reading r b (c :: w) rest ↔
      ∃ k, Leads b (some c) r (.rest k) ∧ Residual.reading k false w rest := by
  constructor
  · intro h
    obtain ⟨place, s, l, hr, hc, hl⟩ := residual_begins h
    rw [List.append_nil] at hr
    exact ⟨l, ⟨_, hr, .rest rfl hc⟩, hl⟩
  · rintro ⟨k, ⟨s, hr, hs⟩, hk⟩
    cases hs with
    | rest hn hc =>
      cases hn
      refine reach_reading (w := c :: w) hr ⟨[c], w, rfl, ⟨c, hc, rfl⟩, ?_⟩
      simpa using hk

/-! The walk -/

namespace Frontier

/-- What a walk has seen and found does not get lost. -/
structure Within (f g : Frontier) : Prop where
  seen : ∀ r, f.visited.contains r = true → g.visited.contains r = true
  found : ∀ c ∈ f.courses, c ∈ g.courses

theorem Within.refl (f : Frontier) : Within f f := ⟨fun _ h => h, fun _ h => h⟩

theorem Within.trans {f g h : Frontier} (k : Within f g) (l : Within g h) : Within f h :=
  ⟨fun r hr => l.seen r (k.seen r hr), fun c hc => l.found c (k.found c hc)⟩

/-- A residual that needs no more visit: it was visited, or all its moves lead to such residuals
and its courses are found. -/
inductive Handled (b : Bool) (next : Option Char) (f : Frontier) : Residual → Prop
  | seen {r} (h : f.visited.contains r = true) : Handled b next f r
  | step {r} (moves : ∀ s, Edge b next r s → Handled b next f s)
      (opens : ∀ c, Opens next r c → c ∈ f.courses) : Handled b next f r

/-- A visited residual whose moves are handled and whose courses are found. -/
structure Explored (b : Bool) (next : Option Char) (f : Frontier) (r : Residual) : Prop where
  moves : ∀ s, Edge b next r s → Handled b next f s
  opens : ∀ c, Opens next r c → c ∈ f.courses

theorem Handled.mono {f g : Frontier} {r : Residual} (k : Within f g) (h : Handled b next f r) :
    Handled b next g r := by
  induction h with
  | seen h => exact .seen (k.seen _ h)
  | step _ opens ih => exact .step ih fun c hc => k.found c (opens c hc)

theorem Explored.mono {f g : Frontier} {r : Residual} (k : Within f g)
    (h : Explored b next f r) : Explored b next g r :=
  ⟨fun s hs => (h.moves s hs).mono k, fun c hc => k.found c (h.opens c hc)⟩

/-- A walk from `f` to `g` has explored all that it visited. -/
structure Walks (b : Bool) (next : Option Char) (f g : Frontier) : Prop where
  within : Within f g
  explored : ∀ r, g.visited.contains r = true → f.visited.contains r = true ∨ Explored b next g r

theorem Walks.refl (f : Frontier) : Walks b next f f := ⟨.refl f, fun _ h => Or.inl h⟩

theorem Walks.trans {f g h : Frontier} (k : Walks b next f g) (l : Walks b next g h) :
    Walks b next f h := by
  refine ⟨k.within.trans l.within, fun r hr => ?_⟩
  rcases l.explored r hr with hg | he
  · exact (k.explored r hg).imp_right fun e => e.mono l.within
  · exact Or.inr he

/-- A visit that handles `r`, from whatever frontier behind `f` it begins. -/
def Visits (b : Bool) (next : Option Char) (f : Frontier) (visit : Frontier → Frontier)
    (r : Residual) : Prop :=
  ∀ g, Within f g → Walks b next g (visit g) ∧ Handled b next (visit g) r

theorem Visits.within {f g : Frontier} {visit : Frontier → Frontier} {r : Residual}
    (h : Visits b next f visit r) (k : Within f g) : Visits b next g visit r :=
  fun e l => h e (k.trans l)

theorem visits_move {f : Frontier} {visit : Frontier → Frontier} {r s : Residual}
    (h : Visits b next f visit s) (moves : ∀ t, Edge b next r t → t = s)
    (opens : ∀ c, ¬ Opens next r c) : Visits b next f visit r := by
  intro g k
  obtain ⟨hw, hh⟩ := h g k
  exact ⟨hw, .step (fun t ht => moves t ht ▸ hh) fun c hc => absurd hc (opens c)⟩

theorem walks_add (f : Frontier) (c : Course) : Walks b next f (f.add c) :=
  ⟨⟨fun _ h => h, fun _ hd => List.mem_cons_of_mem c hd⟩, fun _ h => Or.inl h⟩

theorem insert_within (f : Frontier) (r : Residual) :
    Within f { f with visited := f.visited.insert r } :=
  ⟨fun _ h => (Visited.contains_insert _ _ _).mpr (Or.inr h), fun _ h => h⟩

theorem visits_once {f : Frontier} {r : Residual} {visit : Frontier → Frontier}
    (h : ∀ g, Within f g → g.visited.contains r = true →
      Walks b next g (visit g) ∧ Explored b next (visit g) r) :
    Visits b next f (fun f => f.once r visit) r := by
  intro g k
  by_cases hr : g.visited.contains r = true
  · simp only [once, hr, if_true]
    exact ⟨.refl g, .seen hr⟩
  · simp only [once, hr]
    have hin : (g.visited.insert r).contains r = true :=
      (Visited.contains_insert _ _ _).mpr (Or.inl rfl)
    have kin := insert_within g r
    obtain ⟨hw, he⟩ := h { g with visited := g.visited.insert r } (k.trans kin) hin
    refine ⟨⟨kin.trans hw.within, fun s hs => ?_⟩, .seen (hw.within.seen r hin)⟩
    rcases hw.explored s hs with hs | hs
    · rcases (Visited.contains_insert _ _ _).mp hs with rfl | hs
      · exact Or.inr he
      · exact Or.inl hs
    · exact Or.inr hs

theorem visits_inOrder {f : Frontier} {first second : Frontier → Frontier} {r s : Residual}
    (greedy : Bool) (hr : Visits b next f first r) (hs : Visits b next f second s) {g : Frontier}
    (k : Within f g) : Walks b next g (inOrder greedy first second g) ∧
      Handled b next (inOrder greedy first second g) r ∧
      Handled b next (inOrder greedy first second g) s := by
  cases greedy with
  | true =>
    obtain ⟨w₁, h₁⟩ := hr g k
    obtain ⟨w₂, h₂⟩ := hs _ (k.trans w₁.within)
    exact ⟨w₁.trans w₂, h₁.mono w₂.within, h₂⟩
  | false =>
    obtain ⟨w₁, h₁⟩ := hs g k
    obtain ⟨w₂, h₂⟩ := hr _ (k.trans w₁.within)
    exact ⟨w₁.trans w₂, h₂, h₁.mono w₂.within⟩

theorem visitTimes_visits {f : Frontier} {p : Pattern} {k : Residual}
    {visit : Residual → (Frontier → Frontier) → Frontier → Frontier} {after : Frontier → Frontier}
    (hv : ∀ l step, Visits b next f step l → Visits b next f (visit l step) (p :: l))
    (ha : Visits b next f after k) (n : ℕ) :
    Visits b next f (visitTimes visit p k after n) (times n p :: k) := by
  induction n with
  | zero => exact visits_move ha (fun t e => by cases e; rfl) fun c h => by cases h
  | succ n ih => exact visits_move (hv _ _ ih) (fun t e => by cases e; rfl) fun c h => by cases h

theorem visitUpTo_visits {f : Frontier} {place : ℕ} {greedy : Bool} {p : Pattern} {k : Residual}
    {visit : Residual → (Frontier → Frontier) → Frontier → Frontier} {after : Frontier → Frontier}
    (hv : ∀ l step, Visits b next f step l → Visits b next f (visit l step) (p :: l))
    (ha : Visits b next f after k) (n : ℕ) :
    Visits b next f (visitUpTo visit place greedy p k after n) (upTo place greedy n p :: k) := by
  induction n with
  | zero => exact visits_move ha (fun t e => by cases e; rfl) fun c h => by cases h
  | succ n ih =>
    apply visits_once
    intro g l _
    obtain ⟨w, hround, hleave⟩ := visits_inOrder greedy (hv _ _ ih) ha l
    refine ⟨w, fun s e => ?_, fun c h => by cases h⟩
    cases e
    · exact hleave
    · exact hround

/-- A visit of a pattern handles it before `k`, if the visit behind it handles `k`. -/
theorem visit_visits (p : Pattern) {f : Frontier} (k : Residual) (after : Frontier → Frontier)
    (ha : Visits b next f after k) : Visits b next f (visit b next p k after) (p :: k) := by
  induction p generalizing f k after with
  | empty => exact visits_move ha (fun t e => by cases e; rfl) fun c h => by cases h
  | set place s =>
    intro g l
    by_cases hn : next.any s.contains = true
    · simp only [visit, hn, if_true]
      have adds : Visits b next f (fun f => f.once (set place s :: k) fun f => f.add (.rest k))
          (set place s :: k) := by
        refine visits_once fun e _ _ => ⟨walks_add e _, (fun t ht => by cases ht), fun c hc => ?_⟩
        cases hc
        exact List.mem_cons_self
      exact adds g l
    · simp only [visit, hn]
      refine ⟨.refl g, .step (fun t ht => by cases ht) fun c hc => ?_⟩
      cases hc with
      | rest hc hs =>
        subst hc
        exact absurd hs hn
  | textStart =>
    intro g l
    cases b with
    | true => exact visits_move ha (fun t e => by cases e; rfl) (fun c h => by cases h) g l
    | false =>
      exact ⟨.refl g, .step (fun t ht => by cases ht with | textStart h => cases h)
        fun c hc => by cases hc⟩
  | textEnd =>
    intro g l
    cases next with
    | none => exact visits_move ha (fun t e => by cases e; rfl) (fun c h => by cases h) g l
    | some c =>
      exact ⟨.refl g, .step (fun t ht => by cases ht with | textEnd h => cases h)
        fun c hc => by cases hc⟩
  | cat p q hp hq =>
    exact visits_move (hp (q :: k) _ (hq k after ha)) (fun t e => by cases e; rfl)
      fun c h => by cases h
  | either place p q hp hq =>
    apply visits_once
    intro g l _
    obtain ⟨w₁, h₁⟩ := hp k after ha g l
    obtain ⟨w₂, h₂⟩ := hq k after ha _ (l.trans w₁.within)
    refine ⟨w₁.trans w₂, fun s e => ?_, fun c h => by cases h⟩
    cases e
    · exact h₁.mono w₂.within
    · exact h₂
  | again place greedy p ih =>
    apply visits_once
    intro g l hg
    have back : Visits b next g id (again place greedy p :: k) :=
      fun e le => ⟨.refl e, .seen (le.seen _ hg)⟩
    obtain ⟨w, hround, hleave⟩ := visits_inOrder greedy (ih _ id back) (ha.within l) (.refl g)
    refine ⟨w, fun s e => ?_, fun c h => by cases h⟩
    cases e
    · exact hround
    · exact hleave
  | times n p ih => exact visitTimes_visits (fun l step h => ih l step h) ha n
  | upTo place greedy n p ih => exact visitUpTo_visits (fun l step h => ih l step h) ha n

theorem visitAll_visits (f : Frontier) (r : Residual) : Visits b next f (visitAll b next r) r := by
  induction r generalizing f with
  | nil =>
    intro g _
    refine ⟨walks_add g _, .step (fun t e => by cases e) fun c hc => ?_⟩
    cases hc
    exact List.mem_cons_self
  | cons p k ih => exact visit_visits p k _ (ih f)

/-- A visit adds no course but those its residual leads to. -/
def Adds (b : Bool) (next : Option Char) (visit : Frontier → Frontier) (r : Residual) : Prop :=
  ∀ f c, c ∈ (visit f).courses → c ∈ f.courses ∨ Leads b next r c

theorem leads_edge {r s : Residual} {c : Course} (e : Edge b next r s) (h : Leads b next s c) :
    Leads b next r c := by
  obtain ⟨t, ht, hc⟩ := h
  exact ⟨t, .head e ht, hc⟩

theorem adds_edge {visit : Frontier → Frontier} {r s : Residual} (h : Adds b next visit s)
    (e : Edge b next r s) : Adds b next visit r :=
  fun f c hc => (h f c hc).imp_right (leads_edge e)

theorem adds_comp {first second : Frontier → Frontier} {r : Residual}
    (h₁ : Adds b next first r) (h₂ : Adds b next second r) :
    Adds b next (fun f => second (first f)) r := by
  intro f c hc
  rcases h₂ _ c hc with hc | hc
  · exact h₁ f c hc
  · exact Or.inr hc

theorem adds_inOrder {first second : Frontier → Frontier} {r : Residual} (greedy : Bool)
    (h₁ : Adds b next first r) (h₂ : Adds b next second r) :
    Adds b next (inOrder greedy first second) r := by
  intro f c hc
  cases greedy with
  | true => exact adds_comp h₁ h₂ f c hc
  | false => exact adds_comp h₂ h₁ f c hc

theorem adds_once {visit : Frontier → Frontier} {r : Residual} (h : Adds b next visit r) :
    Adds b next (fun f => f.once r visit) r := by
  intro f c hc
  simp only [once] at hc
  split at hc
  · exact Or.inl hc
  · exact h { f with visited := f.visited.insert r } c hc

theorem visitTimes_adds {p : Pattern} {k : Residual}
    {visit : Residual → (Frontier → Frontier) → Frontier → Frontier} {after : Frontier → Frontier}
    (hv : ∀ l step, Adds b next step l → Adds b next (visit l step) (p :: l))
    (ha : Adds b next after k) (n : ℕ) :
    Adds b next (visitTimes visit p k after n) (times n p :: k) := by
  induction n with
  | zero => exact adds_edge ha .timesZero
  | succ n ih => exact adds_edge (hv _ _ ih) .timesSucc

theorem visitUpTo_adds {place : ℕ} {greedy : Bool} {p : Pattern} {k : Residual}
    {visit : Residual → (Frontier → Frontier) → Frontier → Frontier} {after : Frontier → Frontier}
    (hv : ∀ l step, Adds b next step l → Adds b next (visit l step) (p :: l))
    (ha : Adds b next after k) (n : ℕ) :
    Adds b next (visitUpTo visit place greedy p k after n) (upTo place greedy n p :: k) := by
  induction n with
  | zero => exact adds_edge ha .upToLeave
  | succ n ih =>
    exact adds_once (adds_inOrder greedy (adds_edge (hv _ _ ih) .upToRound)
      (adds_edge ha .upToLeave))

theorem visit_adds (p : Pattern) (k : Residual) (after : Frontier → Frontier)
    (ha : Adds b next after k) : Adds b next (visit b next p k after) (p :: k) := by
  induction p generalizing k after with
  | empty => exact adds_edge ha .empty
  | set place s =>
    intro f c hc
    simp only [visit] at hc
    split at hc
    · next hn =>
      refine adds_once (fun g a ha => ?_) f c hc
      rcases List.mem_cons.mp ha with rfl | ha
      · cases next with
        | none => cases hn
        | some d => exact Or.inr ⟨_, .refl, .rest rfl hn⟩
      · exact Or.inl ha
    · exact Or.inl hc
  | textStart =>
    intro f c hc
    cases b with
    | true => exact adds_edge ha (.textStart rfl) f c hc
    | false => exact Or.inl hc
  | textEnd =>
    intro f c hc
    cases next with
    | none => exact adds_edge ha (.textEnd rfl) f c hc
    | some d => exact Or.inl hc
  | cat p q hp hq => exact adds_edge (hp _ _ (hq k after ha)) .cat
  | either place p q hp hq =>
    exact adds_once (adds_comp (adds_edge (hp k after ha) .first)
      (adds_edge (hq k after ha) .second))
  | again place greedy p ih =>
    exact adds_once (adds_inOrder greedy (adds_edge (ih _ id fun f c hc => Or.inl hc) .round)
      (adds_edge ha .leave))
  | times n p ih => exact visitTimes_adds (fun l step h => ih l step h) ha n
  | upTo place greedy n p ih => exact visitUpTo_adds (fun l step h => ih l step h) ha n

theorem visitAll_adds (r : Residual) : Adds b next (visitAll b next r) r := by
  induction r with
  | nil =>
    intro f c hc
    rcases List.mem_cons.mp hc with rfl | hc
    · exact Or.inr ⟨[], .refl, .stop⟩
    · exact Or.inl hc
  | cons p k ih => exact visit_adds p k _ ih

theorem foldl_walks (f : Frontier) (rs : List Residual) :
    let g := rs.foldl (fun f r => visitAll b next r f) f
    Walks b next f g ∧ (∀ r ∈ rs, Handled b next g r) ∧
      ∀ c ∈ g.courses, c ∈ f.courses ∨ ∃ r ∈ rs, Leads b next r c := by
  induction rs generalizing f with
  | nil => exact ⟨.refl f, fun r hr => (by cases hr), fun c hc => Or.inl hc⟩
  | cons r rs ih =>
    obtain ⟨w₁, h₁⟩ := visitAll_visits f r f (.refl f)
    obtain ⟨w₂, h₂, hc₂⟩ := ih (visitAll b next r f)
    refine ⟨w₁.trans w₂, fun s hs => ?_, fun c hc => ?_⟩
    · rcases List.mem_cons.mp hs with rfl | hs
      · exact h₁.mono w₂.within
      · exact h₂ s hs
    · rcases hc₂ c hc with hc | ⟨s, hs, hc⟩
      · rcases visitAll_adds r f c hc with hc | hc
        · exact Or.inl hc
        · exact Or.inr ⟨r, List.mem_cons_self, hc⟩
      · exact Or.inr ⟨s, List.mem_cons_of_mem _ hs, hc⟩

/-- If all that was visited is explored, what can be reached from a handled residual is handled. -/
theorem handled_reach {f : Frontier}
    (hf : ∀ r, f.visited.contains r = true → Explored b next f r) {r s : Residual}
    (h : Handled b next f r) (hr : Reach b next r s) : Handled b next f s := by
  induction hr with
  | refl => exact h
  | head e _ ih =>
    cases h with
    | seen hv => exact ih ((hf _ hv).moves _ e)
    | step moves _ => exact ih (moves _ e)

end Frontier

open Frontier in
/-- The courses found are those that can be reached. -/
theorem mem_courses {rs : List Residual} {c : Course} :
    c ∈ courses b next rs ↔ ∃ r ∈ rs, Leads b next r c := by
  obtain ⟨w, handled, added⟩ := @foldl_walks b next {} rs
  have explored := fun r hr => (w.explored r hr).resolve_left (by simp [Visited.contains,
    Visited.containsAt])
  rw [courses, List.mem_reverse]
  constructor
  · intro hc
    exact (added c hc).resolve_left (by simp)
  · rintro ⟨r, hr, s, hs, hc⟩
    cases handled_reach explored (handled r hr) hs with
    | seen hv => exact (explored s hv).opens c hc
    | step _ opens => exact opens c hc

end SparqlTokens.Pattern
