import Mathlib.Data.List.TakeWhile
import SparqlTokens.Command.Arguments

/-! The options without a value that a command line gives, argument by argument. Whether one is
given does not depend on the arguments before it, as long as none of them is two hyphens: an option
that waits for its value takes no other option for it. -/
namespace SparqlTokens

namespace Command

namespace Switch

end Switch

namespace Argument

variable {flag s : Switch}

end Argument

namespace Given

variable {allowed : List Switch} {flag s : Switch} {g g₁ g' : Given} {waiting : Option Switch}

/-- What reading adds to the options given: one of them if it was given, and only if it may be. -/
structure Adds (allowed : List Switch) (flag : Switch) (given : Bool) (g g' : Given) : Prop where
  has : g'.has flag = (g.has flag || given)
  allowed : given = true → flag ∈ allowed

theorem Adds.trans {first second : Bool} (h₁ : Adds allowed flag first g g₁)
    (h₂ : Adds allowed flag second g₁ g') : Adds allowed flag (first || second) g g' := by
  constructor
  · rw [h₂.has, h₁.has, Bool.or_assoc]
  · intro hany
    rcases Bool.or_eq_true_iff.mp hany with hany | hany
    · exact h₁.allowed hany
    · exact h₂.allowed hany

section Add

variable {value : String}

end Add

section Step

variable {text : String} {texts : List String}

end Step

end Given

/-! Commands -/

section Line

variable {args : List String} {c : Command} {t : Tokenize}

end Line

end Command

end SparqlTokens
