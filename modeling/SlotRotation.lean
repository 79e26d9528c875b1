import SlotRotation.Kernel.Printer
import SlotRotation.Kernel.Stmt
import SlotRotation.Pipeline.Run
import SlotRotation.Proofs.Edits.Placement
import SlotRotation.Proofs.Edits.Sequence
import SlotRotation.Proofs.SlotEdits
import SlotRotation.Proofs.Exchange
import SlotRotation.Proofs.Fits
import SlotRotation.Proofs.Yields
import SlotRotation.Proofs.Edits.Local
import SlotRotation.Proofs.Trades
import SlotRotation.Proofs.Opening
import SlotRotation.Proofs.Footprint
import SlotRotation.Proofs.Assembly
import SlotRotation.Proofs.Expansion
import SlotRotation.Proofs.Installs
import SlotRotation.Proofs.Expand
import SlotRotation.Proofs.Guards
import SlotRotation.Proofs.Resizing
import SlotRotation.Proofs.Resize
import SlotRotation.Proofs.Building
import SlotRotation.Proofs.Carries
import SlotRotation.Proofs.Goodness
import SlotRotation.Proofs.Multibuffer
import SlotRotation.Proofs.Barriers
import SlotRotation.Proofs.Execution
import SlotRotation.Proofs.Interleaving
import SlotRotation.Proofs.Outcomes
import SlotRotation.Proofs.Overwriting
import SlotRotation.Proofs.Bindings
import SlotRotation.Proofs.Iterations
import SlotRotation.Proofs.Meaning
import SlotRotation.Proofs.Lexical
import SlotRotation.Proofs.Lasting
import SlotRotation.Proofs.Consumption
import SlotRotation.Proofs.Directives
import SlotRotation.Proofs.Accounting
import SlotRotation.Proofs.Counting
import SlotRotation.Proofs.LoopChoice
import SlotRotation.Proofs.SwapStages
import SlotRotation.Proofs.Refitting
import SlotRotation.Proofs.Housing
import SlotRotation.Proofs.Confinement
import SlotRotation.Proofs.RoundTrip
import SlotRotation.Proofs.Detection
import SlotRotation.Proofs.Sizes
import SlotRotation.Proofs.Records
import SlotRotation.Proofs.Erasure
import SlotRotation.Proofs.Discipline
import SlotRotation.Proofs.Numbering
import SlotRotation.Proofs.Ancestry
import SlotRotation.Proofs.Definitions
import SlotRotation.Proofs.Snapshot
