import SparqlTokens.Pattern.Basic
/-!
What a pattern can read next. A residual is what is left to match: patterns that follow one another.
Before the next character, a residual opens courses: to end, or to read the character and go on with
a shorter residual. They are found best first, and each residual on the way is visited only once, so
that a round that reads nothing leads nowhere.
-/

namespace SparqlTokens

namespace Pattern

abbrev Residual := List Pattern

/-- A number that tells most places of a pattern apart. -/
def mark : Pattern → Nat
  | set place _ | either place _ _ | again place _ _ => place
  | cat p _ => p.mark
  | times n _ => 5 * n
  | upTo place _ n _ => place + 5 * n
  | _ => 0

def Residual.key (r : Residual) : Nat := r.foldr (fun p n => (p.mark + 31 * n) % 65537) 0

/-- Whether two residuals are equal. Patterns that are one in memory need no comparison. -/
def Residual.same : Residual → Residual → Bool
  | [], [] => true
  | p :: k, q :: l => withPtrEq p q (fun _ => p == q) (fun h => by simp [h]) && same k l
  | _, _ => false

theorem Residual.same_iff (k l : Residual) : k.same l = true ↔ k = l := by
  induction k generalizing l with
  | nil => cases l <;> simp [same]
  | cons p k ih => cases l <;> simp [same, withPtrEq, ih]

/-- A set of residuals, spread out by the binary digits of their keys, lowest first. -/
inductive Visited where
  | none
  | node (r : Residual) (even odd : Visited)

namespace Visited

def containsAt (r : Residual) (key : Nat) : Visited → Bool
  | none => false
  | node q even odd =>
    q.same r || (if key % 2 = 0 then even.containsAt r (key / 2) else odd.containsAt r (key / 2))

def insertAt (r : Residual) (key : Nat) : Visited → Visited
  | none => node r none none
  | node q even odd =>
    if key % 2 = 0 then node q (even.insertAt r (key / 2)) odd
    else node q even (odd.insertAt r (key / 2))

def contains (v : Visited) (r : Residual) : Bool := v.containsAt r r.key

def insert (v : Visited) (r : Residual) : Visited := v.insertAt r r.key

theorem containsAt_insertAt (v : Visited) (q r : Residual) (m n : Nat) (h : q = r → m = n) :
    (v.insertAt q m).containsAt r n = (q.same r || v.containsAt r n) := by
  induction v generalizing m n with
  | none => simp [insertAt, containsAt]
  | node s even odd evenStep oddStep =>
    have half : q = r → m / 2 = n / 2 := fun same => by rw [h same]
    have evenStep := evenStep _ _ half
    have oddStep := oddStep _ _ half
    by_cases same : q = r
    · obtain rfl := h same
      have yes := (q.same_iff r).2 same
      by_cases hm : m % 2 = 0 <;> simp_all [insertAt, containsAt]
    · have no : q.same r = false := by simpa [same] using q.same_iff r
      by_cases hm : m % 2 = 0 <;> by_cases hn : n % 2 = 0 <;> simp_all [insertAt, containsAt]

theorem contains_insert (v : Visited) (q r : Residual) :
    (v.insert q).contains r = true ↔ q = r ∨ v.contains r = true := by
  simp [contains, insert, Residual.same_iff,
    containsAt_insertAt v q r q.key r.key fun h => by rw [h]]

end Visited

/-- A course before the next character: the match ends here, or the character is read and `r` is
left. -/
inductive Course where
  | stop
  | rest (r : Residual)
  deriving DecidableEq, Repr

structure Frontier where
  visited : Visited := .none
  courses : List Course := []

namespace Frontier

def add (f : Frontier) (c : Course) : Frontier := { f with courses := c :: f.courses }

def once (f : Frontier) (r : Residual) (visit : Frontier → Frontier) : Frontier :=
  if f.visited.contains r then f else visit { f with visited := f.visited.insert r }

def inOrder (greedy : Bool) (round leave : Frontier → Frontier) (f : Frontier) : Frontier :=
  if greedy then leave (round f) else round (leave f)

def visitTimes (visit : Residual → (Frontier → Frontier) → Frontier → Frontier) (p : Pattern)
    (k : Residual) (after : Frontier → Frontier) : Nat → Frontier → Frontier
  | 0, f => after f
  | n + 1, f => visit (times n p :: k) (visitTimes visit p k after n) f

def visitUpTo (visit : Residual → (Frontier → Frontier) → Frontier → Frontier) (place : Nat)
    (greedy : Bool) (p : Pattern) (k : Residual) (after : Frontier → Frontier) :
    Nat → Frontier → Frontier
  | 0, f => after f
  | n + 1, f => f.once (upTo place greedy (n + 1) p :: k) fun f =>
    inOrder greedy (visit (upTo place greedy n p :: k)
      (visitUpTo visit place greedy p k after n)) after f

/-- Visits a pattern before the residual `k`, which `after` visits. `atStart` tells whether the text
begins here, and `next` is its next character. -/
def visit (atStart : Bool) (next : Option Char) :
    Pattern → Residual → (Frontier → Frontier) → Frontier → Frontier
  | empty, _, after, f => after f
  | set place s, k, _, f =>
    if next.any s.contains then f.once (set place s :: k) fun f => f.add (.rest k) else f
  | textStart, _, after, f => if atStart then after f else f
  | textEnd, _, after, f => if next.isNone then after f else f
  | cat p q, k, after, f => visit atStart next p (q :: k) (visit atStart next q k after) f
  | either place p q, k, after, f => f.once (either place p q :: k) fun f =>
    visit atStart next q k after (visit atStart next p k after f)
  | again place greedy p, k, after, f => f.once (again place greedy p :: k) fun f =>
    -- a round that reads nothing leads back to the residual just visited
    inOrder greedy (visit atStart next p (again place greedy p :: k) id) after f
  | times n p, k, after, f => visitTimes (visit atStart next p) p k after n f
  | upTo place greedy n p, k, after, f =>
    visitUpTo (visit atStart next p) place greedy p k after n f

def visitAll (atStart : Bool) (next : Option Char) : Residual → Frontier → Frontier
  | [], f => f.add .stop
  | p :: k, f => visit atStart next p k (visitAll atStart next k) f

end Frontier

def courses (atStart : Bool) (next : Option Char) (rs : List Residual) : List Course :=
  (rs.foldl (fun f r => Frontier.visitAll atStart next r f) {}).courses.reverse

/-- The courses worth following, and whether the match may end here instead of the others. -/
def preferred : List Course → List Residual × Bool
  | [] => ([], false)
  | .stop :: _ => ([], true)
  | .rest r :: cs => (r :: (preferred cs).1, (preferred cs).2)

end Pattern

end SparqlTokens
