import Backtrack.Failure.Construct
import Backtrack.Value.Construct
import Backtrack.Grammar.Blueprint
import Backtrack.Parse
import Backtrack.Proofs.Cursor
import Backtrack.Proofs.Presentation
import Backtrack.Proofs.Simulation
import Backtrack.Proofs.Memory
import Backtrack.Proofs.Streaming
import Backtrack.Proofs.Paths
import Backtrack.Proofs.Signals
import Backtrack.Proofs.Lockstep
import Backtrack.Proofs.Acceptance
import Backtrack.Proofs.Arity
import Backtrack.Proofs.Motion
import Backtrack.Proofs.Fuel
import Backtrack.Proofs.Evaluates
import Backtrack.Proofs.Consuming
import Backtrack.Proofs.Clean
import Backtrack.Proofs.Termination
import Backtrack.Proofs.Stack
import Backtrack.Proofs.Visit
import Backtrack.Proofs.Course
import Backtrack.Proofs.Calling
import Backtrack.Proofs.Raising
import Backtrack.Proofs.Safety
import Backtrack.Proofs.Extent
import Backtrack.Proofs.Iteration
import Backtrack.Proofs.Separation
import Backtrack.Proofs.Pulling
import Backtrack.Proofs.Pairing
import Backtrack.Proofs.Tandem
import Backtrack.Proofs.Replay
import Backtrack.Proofs.Factoring
import Backtrack.Proofs.Flattening
import Backtrack.Proofs.Leading
import Backtrack.Proofs.Lookahead
import Backtrack.Proofs.Scoping
import Backtrack.Proofs.Surfacing
import Backtrack.Proofs.Causality
import Backtrack.Proofs.Overtaking
import Backtrack.Proofs.Numeral
import Backtrack.Proofs.Reading
import Backtrack.Proofs.Equality
import Backtrack.Proofs.Membership
import Backtrack.Proofs.Spelling
import Backtrack.Proofs.Integer
import Backtrack.Proofs.Nesting
import Backtrack.Proofs.Parse
import Backtrack.Proofs.Radix
import Backtrack.Proofs.Quotation
import Backtrack.Proofs.Decimal
import Backtrack.Proofs.Supply
import Backtrack.Proofs.Requests
import Backtrack.Proofs.Demand
import Backtrack.Proofs.Tape
import Backtrack.Proofs.Beside
import Backtrack.Proofs.Rollback
import Backtrack.Proofs.Refusal
import Backtrack.Proofs.Trimming
import Backtrack.Proofs.Retreat
import Backtrack.Proofs.Spans
import Backtrack.Proofs.RawQuotation
import Backtrack.Proofs.Literal
