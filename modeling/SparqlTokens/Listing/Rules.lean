import SparqlTokens.Grammar.Table
import SparqlTokens.Listing.Grid
/-!
The listing of rule names, each with its rank if it makes tokens.
-/

namespace SparqlTokens

namespace Listing

def ruleLine (name : String) (rank? : Option Nat) : List Char :=
  let rank := match rank? with
    | some n => (toString n).toList
    | none => []
  Grid.padLeft 3 rank ++ ' ' :: ' ' :: name.toList ++ ['\n']

def ofRules (t : Table) : String :=
  String.ofList (t.names.flatMap fun name => ruleLine name ((t.rule? name).bind (·.rank?)))

end Listing

end SparqlTokens
