import Lexigram.Config
import Lexigram.Decimal.Float64
import Lexigram.Decimal.Numeral
import Lexigram.Decimal.Shortest
import Lexigram.Enumeration.Chain
import Lexigram.Enumeration.Merge
import Lexigram.Grammar.Basic
import Lexigram.Grammar.Builder
import Lexigram.Grammar.Stream
import Lexigram.Json.Record
import Lexigram.Json.Text
import Lexigram.Language
import Lexigram.Lexer.Basic
import Lexigram.Lexer.Tokens
import Lexigram.Parser
import Lexigram.Pattern
import Lexigram.Regex.Basic
import Lexigram.Regex.CharSet
import Lexigram.Regex.Class
import Lexigram.Regex.Escape
import Lexigram.Regex.Match
import Lexigram.Regex.Reader
import Lexigram.Text.Basic
import Lexigram.Text.Position
import Lexigram.Token
import Lexigram.Unicode.CaseOrbit
import Lexigram.Unicode.Category
import Lexigram.Value
import Lexigram.Vocabulary
import Lexigram.Proofs.Traced
import Lexigram.Proofs.Pulls
import Lexigram.Proofs.Search
import Lexigram.Proofs.Hint
import Lexigram.Proofs.Tree
import Lexigram.Proofs.Soundness
import Lexigram.Proofs.Listing
import Lexigram.Proofs.Leading
import Lexigram.Proofs.Termination
import Lexigram.Proofs.Draining
import Lexigram.Proofs.Exhaustion
import Lexigram.Proofs.Reduced
import Lexigram.Proofs.Exactness
import Lexigram.Proofs.Relabelling
import Lexigram.Proofs.Recognition
import Lexigram.Proofs.Narrowing
import Lexigram.Proofs.Ambiguity
import Lexigram.Proofs.Budget
import Lexigram.Proofs.Failure
import Lexigram.Proofs.Pieces
import Lexigram.Proofs.Segmentation
import Lexigram.Proofs.Reading
import Lexigram.Proofs.Restarting
import Lexigram.Proofs.Laziness
import Lexigram.Proofs.Locality
import Lexigram.Proofs.Dangling
import Lexigram.Proofs.Building
import Lexigram.Proofs.Rotation
import Lexigram.Proofs.Merging
import Lexigram.Proofs.Stacks
import Lexigram.Proofs.Traversal
import Lexigram.Proofs.Calls
import Lexigram.Proofs.Lengthening
import Lexigram.Proofs.Plain
import Lexigram.Proofs.Shadowing
import Lexigram.Proofs.Extending
import Lexigram.Proofs.LeftNesting
import Lexigram.Proofs.Accumulating
import Lexigram.Proofs.Progress
import Lexigram.Proofs.Forms
import Lexigram.Proofs.LongestMatch
import Lexigram.Proofs.Overlapping
import Lexigram.Proofs.Alphabet
import Lexigram.Proofs.Written
import Lexigram.Proofs.Quoting
import Lexigram.Proofs.Overriding
import Lexigram.Proofs.Rounding
import Lexigram.Proofs.Decimals
import Lexigram.Proofs.Unambiguous
