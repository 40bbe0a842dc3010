import WordLisp.Main
import WordLisp.Proofs.Results
import WordLisp.Proofs.Decoding
import WordLisp.Proofs.Listing.Placement
import WordLisp.Proofs.Machine.Views
import WordLisp.Proofs.Machine.Runs
import WordLisp.Proofs.Machine.Steps
import WordLisp.Proofs.Code.Basic
import WordLisp.Proofs.Code.Sites
import WordLisp.Proofs.Code.Compiles
import WordLisp.Proofs.Code.Generated
import WordLisp.Proofs.Code.Program
import WordLisp.Proofs.View.Basic
import WordLisp.Proofs.View.Layout
import WordLisp.Proofs.View.Represents
import WordLisp.Proofs.View.WellFormed
import WordLisp.Proofs.Evaluator
import WordLisp.Proofs.View.Runs
import WordLisp.Proofs.Correctness.Carries
import WordLisp.Proofs.Correctness.Constructs
import WordLisp.Proofs.Correctness.Expressions
import WordLisp.Proofs.View.Outcome
import WordLisp.Proofs.Correctness.Programs
import WordLisp.Proofs.Code.Accesses
import WordLisp.Proofs.Integrity.Runs
import WordLisp.Proofs.Integrity.Frames
import WordLisp.Proofs.Reload.Lockstep
import WordLisp.Proofs.Code.Flows
import WordLisp.Proofs.Reload.Assembly
import WordLisp.Proofs.View.Flows
import WordLisp.Proofs.Reload.Discipline
import WordLisp.Proofs.Reload.Agreement
import WordLisp.Proofs.Reload.Survey
import WordLisp.Proofs.Machine.Devices
import WordLisp.Proofs.Reload.Behaviour
import WordLisp.Proofs.Code.Slots
import WordLisp.Proofs.Integrity.Exhaustion
import WordLisp.Proofs.Machine.Transfers
import WordLisp.Proofs.Machine.Headroom
import WordLisp.Proofs.Listing.Assembling
import WordLisp.Proofs.Source.Cursors
import WordLisp.Proofs.Source.Parsing
import WordLisp.Proofs.Frame
import WordLisp.Proofs.Code.Scoping
import WordLisp.Proofs.Code.Sizing
import WordLisp.Proofs.Code.Tags
import WordLisp.Proofs.Code.Coherence
import WordLisp.Proofs.Text
import WordLisp.Proofs.Source.Names
import WordLisp.Proofs.Source.Scanning
import WordLisp.Proofs.Source.Printing
import WordLisp.Proofs.Listing.Printing
import WordLisp.Proofs.Listing.Disassembly
import WordLisp.Proofs.Image
import WordLisp.Proofs.Code.Legible
import WordLisp.Proofs.Command.Routes
import WordLisp.Proofs.Machine.Slices
import WordLisp.Proofs.History
import WordLisp.Proofs.Machine.AddressMap
import WordLisp.Proofs.Machine.Terminal
import WordLisp.Proofs.Machine.Faults
import WordLisp.Proofs.Machine.Careful
import WordLisp.Proofs.Operator
import WordLisp.Proofs.Reload.NormalForm
import WordLisp.Proofs.Source.Joining
import WordLisp.Proofs.Reading
import WordLisp.Proofs.SymbolPool
import WordLisp.Proofs.Reload.Redundant
import WordLisp.Proofs.Source.Positions
