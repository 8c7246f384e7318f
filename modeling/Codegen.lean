import Codegen.Instr.Stream
import Codegen.Supply
import Codegen.Tree
import Codegen.Pattern.Basic
import Codegen.Rule.Amd64
import Codegen.Selection
import Codegen.Covering
import Codegen.Flow.Basic
import Codegen.Flow.Compress
import Codegen.Flow.Rebuild
import Codegen.Layout
import Codegen.Graph.Basic
import Codegen.Graph.Dot
import Codegen.Graph.Indexed
import Codegen.Liveness
import Codegen.Allocation
import Codegen.Coloring.State
import Codegen.Coloring.Basic
import Codegen.Frame
import Codegen.Spill
import Codegen.Text.Numeral
import Codegen.Target.Basic
import Codegen.Target.File
import Codegen.Backend
import Codegen.Bindings
import Codegen.Lint
import Codegen.Machine.Run
import Codegen.Program
import Codegen.Report
import Codegen.Sample
import Codegen.Command.Basic
import Codegen.Command.Flags
import Codegen.Command.LoopSum
import Codegen.Command.SpillCheck
import Codegen.Main
import Codegen.Proofs.Coloring.Greedy
import Codegen.Proofs.Lint.Sound
import Codegen.Proofs.Liveness.Exact
import Codegen.Proofs.Spill.Preserves
import Codegen.Proofs.Spill.Fallback
import Codegen.Proofs.Backend.Preserves
import Codegen.Proofs.Flow.Trace
import Codegen.Proofs.Layout.Faithful
import Codegen.Proofs.Selection.Correct
import Codegen.Proofs.Frame.Discipline
import Codegen.Proofs.Backend.Encodable
import Codegen.Proofs.Frame.CalleeSaved
import Codegen.Proofs.Renaming.Compile
import Codegen.Proofs.Selection.Optimal
import Codegen.Proofs.Coloring.Stuck
import Codegen.Proofs.Coloring.Terminates
import Codegen.Proofs.Flow.Terminates
import Codegen.Proofs.Machine.Described
import Codegen.Proofs.Allocation.Invisible
import Codegen.Proofs.Target.Loaded
import Codegen.Proofs.Sample.Expression
import Codegen.Proofs.Flow.Counted
import Codegen.Proofs.Graph.History
import Codegen.Proofs.Coloring.Consistent
import Codegen.Proofs.Pattern.Rebuild
