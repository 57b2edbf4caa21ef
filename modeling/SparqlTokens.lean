import SparqlTokens.Main
import SparqlTokens.Record.LexicalError
import SparqlTokens.Proofs.Lexing.Positions
import SparqlTokens.Proofs.Lexing.Tiling
import SparqlTokens.Proofs.Lexing.Views
import SparqlTokens.Proofs.Sparql.MaximalMunch
import SparqlTokens.Proofs.Sparql.Errors
import SparqlTokens.Proofs.Sparql.LongestMatch
import SparqlTokens.Proofs.Sparql.SingleTokens
import SparqlTokens.Proofs.Sparql.Composites
import SparqlTokens.Proofs.Lexing.Progress
import SparqlTokens.Proofs.Sparql.LineByLine
import SparqlTokens.Proofs.Sparql.Respacing
import SparqlTokens.Proofs.Sparql.Values
import SparqlTokens.Proofs.Sparql.Literals
import SparqlTokens.Proofs.Grammar.Declarations
import SparqlTokens.Proofs.Lexing.Resumption
import SparqlTokens.Proofs.Grammar.Ranks
import SparqlTokens.Proofs.Grammar.Compilations
import SparqlTokens.Proofs.Lexing.Optimum
import SparqlTokens.Proofs.Lexing.Reordering
import SparqlTokens.Proofs.Sparql.Quotation
import SparqlTokens.Proofs.Sparql.Unambiguous
import SparqlTokens.Proofs.Sparql.Escapes
import SparqlTokens.Proofs.Sparql.PrefixedNames
import SparqlTokens.Proofs.Sparql.Comments
import SparqlTokens.Proofs.Sparql.TrailingDots
import SparqlTokens.Proofs.Sparql.Integers
import SparqlTokens.Proofs.Sparql.LocalEscapes
import SparqlTokens.Proofs.Sparql.Reports
import SparqlTokens.Proofs.Sparql.Snippets
import SparqlTokens.Proofs.Sparql.Keywords
import SparqlTokens.Proofs.Sparql.Scanners
import SparqlTokens.Proofs.Sparql.Listings
import SparqlTokens.Proofs.Command.Outcomes
import SparqlTokens.Proofs.Text.Addresses
import SparqlTokens.Proofs.Grammar.Segments
import SparqlTokens.Proofs.Grammar.Indexing
