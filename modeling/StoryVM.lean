import StoryVM.Bytes
import StoryVM.Event
import StoryVM.Fault
import StoryVM.Frame
import StoryVM.Graph
import StoryVM.Graph.BlockId
import StoryVM.Host
import StoryVM.Instr
import StoryVM.Instr.Binder
import StoryVM.Instr.Lowering
import StoryVM.Instr.Opcode
import StoryVM.Instr.Operand
import StoryVM.Ir.Body
import StoryVM.Ir.Draft
import StoryVM.Ir.Expr
import StoryVM.Ir.Render
import StoryVM.Ir.Stmt
import StoryVM.Ir.Transform
import StoryVM.Json
import StoryVM.Json.Token
import StoryVM.Limits
import StoryVM.Machine
import StoryVM.Machine.Exec
import StoryVM.Machine.Run
import StoryVM.Memory
import StoryVM.Memory.Cursor
import StoryVM.Memory.StringObject
import StoryVM.Program
import StoryVM.Program.Flatten
import StoryVM.Program.Op
import StoryVM.Routine
import StoryVM.Routine.Decode
import StoryVM.Routine.Layout
import StoryVM.Stack
import StoryVM.Story
import StoryVM.Story.Header
import StoryVM.Text.Hex
import StoryVM.Text.Record
import StoryVM.Text.Scalar
import StoryVM.Width
import StoryVM.Proofs.Binding
import StoryVM.Proofs.Layout
import StoryVM.Proofs.Lowering
import StoryVM.Proofs.Decoded
import StoryVM.Proofs.Steady
import StoryVM.Proofs.Refinement
import StoryVM.Proofs.Format
import StoryVM.Proofs.Faults
import StoryVM.Proofs.Balance
import StoryVM.Proofs.Safety
import StoryVM.Proofs.InstrRefinement
import StoryVM.Proofs.ControlFlow
import StoryVM.Proofs.Depth
import StoryVM.Proofs.Termination
import StoryVM.Proofs.Requests
import StoryVM.Proofs.Lockstep
import StoryVM.Proofs.Transparency
import StoryVM.Proofs.CallerStack
import StoryVM.Proofs.ReadOnly
import StoryVM.Proofs.Bare
import StoryVM.Proofs.Cache
import StoryVM.Proofs.Halting
import StoryVM.Proofs.Idempotence
import StoryVM.Proofs.Blocks
import StoryVM.Proofs.Coverage
import StoryVM.Proofs.Inert
import StoryVM.Proofs.FinishedBody
import StoryVM.Proofs.DecodeOutcomes
import StoryVM.Proofs.BranchTargets
import StoryVM.Proofs.Corruption
import StoryVM.Proofs.FrameLayout
import StoryVM.Proofs.StackCalls
import StoryVM.Proofs.Storage
import StoryVM.Proofs.ByteStack
import StoryVM.Proofs.ByteMemory
import StoryVM.Proofs.Arguments
import StoryVM.Proofs.StringObjects
import StoryVM.Proofs.Flattening
import StoryVM.Proofs.CallReports
import StoryVM.Proofs.LocalWidths
import StoryVM.Proofs.LaidOut
import StoryVM.Proofs.Encoding
import StoryVM.Proofs.Renaming
import StoryVM.Proofs.InPlace
import StoryVM.Proofs.BindingInPlace
import StoryVM.Proofs.BindingFrame
import StoryVM.Proofs.Arithmetic
