import CilAnalysis.Interchange.Execution
import CilAnalysis.Interchange.Flow
import CilAnalysis.Proofs.ControlFlow.Mirroring
import CilAnalysis.Proofs.ControlFlow.Reachability
import CilAnalysis.Proofs.ControlFlow.Refusals
import CilAnalysis.Proofs.ControlFlow.Transform
import CilAnalysis.Proofs.DataFlow.Ownership
import CilAnalysis.Proofs.DataFlow.Termination
import CilAnalysis.Proofs.Digraph.Traversal
import CilAnalysis.Proofs.Information.Run
import CilAnalysis.Proofs.KnownBits.BitString
import CilAnalysis.Proofs.Machine.BlockTransfer
import CilAnalysis.Proofs.Machine.ComparisonBranch
import CilAnalysis.Proofs.Machine.Forgetting
import CilAnalysis.Proofs.Machine.VariableFrame
import CilAnalysis.Proofs.Numeric.FloatConversion
import CilAnalysis.Proofs.Numeric.Shift
import CilAnalysis.Proofs.Region.Traversal
import CilAnalysis.Proofs.Slice.InPlace
import CilAnalysis.Proofs.Slice.StraightLine
