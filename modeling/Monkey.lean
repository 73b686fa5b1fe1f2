import Monkey.Main
import Monkey.Value.Equality
import Monkey.Proofs.Layout
import Monkey.Proofs.Trees
import Monkey.Proofs.Rollback
import Monkey.Proofs.Scopes
import Monkey.Proofs.Compiled
import Monkey.Proofs.Verifier
import Monkey.Proofs.Effects
import Monkey.Proofs.Safety
import Monkey.Proofs.Invariant
import Monkey.Proofs.Runs
import Monkey.Proofs.Histories
import Monkey.Proofs.Termination
import Monkey.Proofs.Evaluator
import Monkey.Proofs.Scenes
import Monkey.Proofs.Simulation
import Monkey.Proofs.Isolation
import Monkey.Proofs.Bindings
import Monkey.Proofs.Refusals
import Monkey.Proofs.Relocation
import Monkey.Proofs.Tandem
import Monkey.Proofs.Splitting
import Monkey.Proofs.Headroom
import Monkey.Proofs.StepLimits
import Monkey.Proofs.Bounds
import Monkey.Proofs.Reading
import Monkey.Proofs.Printing
import Monkey.Proofs.Grammar
import Monkey.Proofs.Captures
import Monkey.Proofs.Scoping
import Monkey.Proofs.Lexing
import Monkey.Proofs.Encoding
import Monkey.Proofs.Lexemes
import Monkey.Proofs.Rendering
import Monkey.Proofs.Lookup
import Monkey.Proofs.Sequencing
import Monkey.Proofs.Listings
import Monkey.Proofs.PairOrder
import Monkey.Proofs.Naming
import Monkey.Proofs.Arithmetic
import Monkey.Proofs.Cursor
import Monkey.Proofs.Balance
import Monkey.Proofs.Sites
import Monkey.Proofs.Declarations
import Monkey.Proofs.Origins
import Monkey.Proofs.Slots
import Monkey.Proofs.Activations
import Monkey.Proofs.Hashes
import Monkey.Proofs.Likeness
import Monkey.Proofs.Edits
import Monkey.Proofs.Logs
