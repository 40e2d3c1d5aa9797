import CilMmix.Command.Directory
import CilMmix.Main
import CilMmix.Proofs.Assembly.Encoding
import CilMmix.Proofs.Assembly.Labelling
import CilMmix.Proofs.Assembly.Piece
import CilMmix.Proofs.Assembly.Reading
import CilMmix.Proofs.Assembly.Scratch
import CilMmix.Proofs.Assembly.Transfers
import CilMmix.Proofs.Assembly.Written
import CilMmix.Proofs.Bytes.Framing
import CilMmix.Proofs.Code.Catalogue
import CilMmix.Proofs.Command.Requests
import CilMmix.Proofs.Json.Decoding
import CilMmix.Proofs.Json.Reading
import CilMmix.Proofs.Lowering.Balance
import CilMmix.Proofs.Lowering.Composition
import CilMmix.Proofs.Lowering.Effect
import CilMmix.Proofs.Lowering.Growth
import CilMmix.Proofs.Lowering.Headroom
import CilMmix.Proofs.Lowering.Interchange
import CilMmix.Proofs.Lowering.Locality
import CilMmix.Proofs.Lowering.Region
import CilMmix.Proofs.Lowering.Room
import CilMmix.Proofs.Lowering.Statics
import CilMmix.Proofs.Lowering.Steps
import CilMmix.Proofs.Lowering.Survival
import CilMmix.Proofs.Lowering.Transparency
import CilMmix.Proofs.Machine.Basic
import CilMmix.Proofs.Machine.Brevity
import CilMmix.Proofs.Machine.Constant
import CilMmix.Proofs.Machine.Copy
import CilMmix.Proofs.Machine.Memory
import CilMmix.Proofs.Machine.Moves
import CilMmix.Proofs.Machine.Scaling
import CilMmix.Proofs.Machine.Words
import CilMmix.Proofs.Method.Compilation
import CilMmix.Proofs.Method.Coverage
import CilMmix.Proofs.Method.Exits
import CilMmix.Proofs.Method.Immediates
import CilMmix.Proofs.Method.Independence
import CilMmix.Proofs.Method.Joins
import CilMmix.Proofs.Method.Lockstep
import CilMmix.Proofs.Method.Pieces
import CilMmix.Proofs.Method.Protection
import CilMmix.Proofs.Method.Stitching
import CilMmix.Proofs.Method.Traversal
import CilMmix.Proofs.Method.Widths
import CilMmix.Proofs.Module.Binary
import CilMmix.Proofs.Module.Json
import CilMmix.Proofs.Outcome
import CilMmix.Proofs.Program.Annotation
import CilMmix.Proofs.Program.Assembled
import CilMmix.Proofs.Program.Data
import CilMmix.Proofs.Program.Independence
import CilMmix.Proofs.Program.Labels
import CilMmix.Proofs.Simulation.ArrayHistory
import CilMmix.Proofs.Simulation.Calls
import CilMmix.Proofs.Simulation.Convention
import CilMmix.Proofs.Simulation.Division
import CilMmix.Proofs.Simulation.Entry
import CilMmix.Proofs.Simulation.Evaluation
import CilMmix.Proofs.Simulation.Fields
import CilMmix.Proofs.Simulation.Indirect
import CilMmix.Proofs.Simulation.Method
import CilMmix.Proofs.Simulation.Numbers
import CilMmix.Proofs.Simulation.Places
import CilMmix.Proofs.Simulation.Return
import CilMmix.Proofs.Simulation.Store
import CilMmix.Proofs.Simulation.Transfer
import CilMmix.Proofs.Storage.Allocation
import CilMmix.Proofs.Storage.Image
import CilMmix.Proofs.Storage.Offsets
import CilMmix.Proofs.Storage.Recall
import CilMmix.Proofs.Storage.Requests
import CilMmix.Proofs.Storage.Search
import CilMmix.Proofs.Storage.Sizing
import CilMmix.Proofs.Text.Inline
import CilMmix.Proofs.Window.Shape
import CilMmix.Proofs.Window.Tiling
