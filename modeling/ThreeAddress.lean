import ThreeAddress.CommandLine
import ThreeAddress.Main
import ThreeAddress.Wire
import ThreeAddress.Proofs.Bitmap
import ThreeAddress.Proofs.BitmapElements
import ThreeAddress.Proofs.Machine
import ThreeAddress.Proofs.Circling
import ThreeAddress.Proofs.Shape
import ThreeAddress.Proofs.Validity
import ThreeAddress.Proofs.Rewriting
import ThreeAddress.Proofs.Rules
import ThreeAddress.Proofs.LocalSteps
import ThreeAddress.Proofs.Renumbering
import ThreeAddress.Proofs.CanonicalTemps
import ThreeAddress.Proofs.Landing
import ThreeAddress.Proofs.Threading
import ThreeAddress.Proofs.Unreachable
import ThreeAddress.Proofs.Passes
import ThreeAddress.Proofs.Settling
import ThreeAddress.Proofs.PassBehaviour
import ThreeAddress.Proofs.Resolution
import ThreeAddress.Proofs.Stability
import ThreeAddress.Proofs.Rounds
import ThreeAddress.Proofs.Steps
import ThreeAddress.Proofs.Frames
import ThreeAddress.Proofs.Lowered
import ThreeAddress.Proofs.Evaluation
import ThreeAddress.Proofs.ExprSimulation
import ThreeAddress.Proofs.StmtSimulation
import ThreeAddress.Proofs.LoweredBehaviour
import ThreeAddress.Proofs.OperandValues
import ThreeAddress.Proofs.Readings
import ThreeAddress.Proofs.ReadOnce
import ThreeAddress.Proofs.PipelineBehaviour
import ThreeAddress.Proofs.TestFolding
import ThreeAddress.Proofs.NormalForm
import ThreeAddress.Proofs.Success
import ThreeAddress.Proofs.LoweredValid
import ThreeAddress.Proofs.Acceptance
import ThreeAddress.Proofs.LoweredTemps
import ThreeAddress.Proofs.SetTemps
import ThreeAddress.Proofs.Changes
import ThreeAddress.Proofs.Widths
import ThreeAddress.Proofs.Confined
import ThreeAddress.Proofs.Parallel
import ThreeAddress.Proofs.ParallelLowering
import ThreeAddress.Proofs.Calls
import ThreeAddress.Proofs.Origins
import ThreeAddress.Proofs.LoweredWidths
import ThreeAddress.Proofs.Integrity
import ThreeAddress.Proofs.Independence
import ThreeAddress.Proofs.Isolation
import ThreeAddress.Proofs.FunctionReferences
import ThreeAddress.Proofs.Renaming
import ThreeAddress.Proofs.Pairings
import ThreeAddress.Proofs.Equivariance
import ThreeAddress.Proofs.Unchaining
import ThreeAddress.Proofs.UnchainedLowering
import ThreeAddress.Proofs.UnchainedPrograms
import ThreeAddress.Proofs.Interning
import ThreeAddress.Proofs.WireReading
import ThreeAddress.Proofs.JumpChains
import ThreeAddress.Proofs.LoweredTests
