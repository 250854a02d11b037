import Reckon.Main
import Reckon.Proofs.Grammar
import Reckon.Proofs.Progress
import Reckon.Proofs.Rules
import Reckon.Proofs.Readable
import Reckon.Proofs.Refusals
import Reckon.Proofs.RoundTrip
import Reckon.Proofs.Neighbours
import Reckon.Proofs.Faithful
import Reckon.Proofs.Concrete
import Reckon.Proofs.Course
import Reckon.Proofs.BuiltinRuns
import Reckon.Proofs.Statements
import Reckon.Proofs.Termination
import Reckon.Proofs.Globals
import Reckon.Proofs.Sessions
import Reckon.Proofs.Answers
import Reckon.Proofs.Kinds
import Reckon.Proofs.Coercion
import Reckon.Proofs.InPlace
import Reckon.Proofs.Restored
import Reckon.Proofs.Parallel
import Reckon.Proofs.Lockstep
import Reckon.Proofs.Depth
import Reckon.Proofs.Relevance
import Reckon.Proofs.Substitution
import Reckon.Proofs.Calls
import Reckon.Proofs.Passage
import Reckon.Proofs.OneText
import Reckon.Proofs.LineBreaks
import Reckon.Proofs.Continuation
import Reckon.Proofs.Unprompted
import Reckon.Proofs.Invocation
import Reckon.Proofs.Changes
import Reckon.Proofs.Restated
import Reckon.Proofs.Literals
import Reckon.Proofs.Rationals
import Reckon.Proofs.Quotients
import Reckon.Proofs.Comments
import Reckon.Proofs.Commented
import Reckon.Proofs.Denominators
import Reckon.Proofs.Radicals
import Reckon.Proofs.Assignments
import Reckon.Proofs.WellFormed
import Reckon.Proofs.Places
import Reckon.Proofs.Turns
import Reckon.Proofs.Columns
import Reckon.Proofs.Integers
import Reckon.Proofs.BuiltinCalls
import Reckon.Proofs.Commutation
import Reckon.Proofs.Fuel
import Reckon.Proofs.Products
import Reckon.Proofs.Overflow
import Reckon.Proofs.Mapping
import Reckon.Proofs.Settings
import Reckon.Proofs.Triggers
import Reckon.Proofs.Overflow
