import SigilCall.Call.Renderable
import SigilCall.Call.Series
import SigilCall.Cursor.Script
import SigilCall.Json.Grammar
import SigilCall.Proofs.Json.Quoted
import SigilCall.Proofs.Json.Writes
import SigilCall.Proofs.Rules
import SigilCall.Proofs.Json.Numeral
import SigilCall.Proofs.Json.Value
import SigilCall.Proofs.Json.Decode
import SigilCall.Proofs.Literal.Balance
import SigilCall.Proofs.Literal.Mask
import SigilCall.Proofs.Literal.Depth
import SigilCall.Proofs.Literal.Crossing
import SigilCall.Proofs.Runs
import SigilCall.Proofs.Call.Completeness
import SigilCall.Proofs.Call.Exactness
import SigilCall.Proofs.Call.Invocation
import SigilCall.Proofs.Call.Emission
import SigilCall.Proofs.Call.Termination
import SigilCall.Proofs.Cursor.History
import SigilCall.Proofs.Call.Slices
import SigilCall.Proofs.Call.Enclosing
import SigilCall.Proofs.Json.Rendering
import SigilCall.Proofs.Literal.Rendering
import SigilCall.Proofs.Literal.Delimiting
import SigilCall.Proofs.Call.Rendering
import SigilCall.Proofs.Json.Equality
import SigilCall.Proofs.Call.Renderable
import SigilCall.Proofs.Call.RoundTrip
import SigilCall.Proofs.Call.Offsets
import SigilCall.Proofs.Call.Quoting
import SigilCall.Proofs.Call.Locality
import SigilCall.Proofs.Call.WellFormed
import SigilCall.Proofs.Call.Limit
import SigilCall.Proofs.Call.Unclosed
import SigilCall.Proofs.Call.Viability
import SigilCall.Proofs.Call.Unterminated
import SigilCall.Proofs.Call.Truncation
import SigilCall.Proofs.Call.Ascent
import SigilCall.Proofs.Call.Nodes
import SigilCall.Proofs.Call.Preorder
import SigilCall.Proofs.Call.Series
import SigilCall.Proofs.Call.Fault
import SigilCall.Proofs.Call.Failure
import SigilCall.Proofs.Call.Separation
import SigilCall.Proofs.Call.Shift
