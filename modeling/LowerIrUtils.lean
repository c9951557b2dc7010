import LowerIrUtils.Machine.Budget
import LowerIrUtils.Machine.Lockstep
import LowerIrUtils.Machine.Dominance
import LowerIrUtils.Machine.Env
import LowerIrUtils.Machine.Reaching
import LowerIrUtils.Machine.Forward
import LowerIrUtils.Machine.Assertions
import LowerIrUtils.Float.Ieee754
import LowerIrUtils.Float.Rounding
import LowerIrUtils.Float.Decoding
import LowerIrUtils.Float.DoubleRounding
import LowerIrUtils.Bits.LittleEndian
import LowerIrUtils.Bits.WriteLog
import LowerIrUtils.Bits.Extend
import LowerIrUtils.Text.Hex
import LowerIrUtils.Text.Rows
import LowerIrUtils.Text.Sweep
import LowerIrUtils.Text.Report
import LowerIrUtils.Clif.Types
import LowerIrUtils.Clif.Function
import LowerIrUtils.Clif.Verifier
import LowerIrUtils.Clif.Reference
import LowerIrUtils.Clif.Semantics
import LowerIrUtils.Clif.StraightLine
import LowerIrUtils.Sim.Value
import LowerIrUtils.Sim.Arith
import LowerIrUtils.Sim.Memory
import LowerIrUtils.Sim.Step
import LowerIrUtils.Sim.Effect
import LowerIrUtils.Sim.Reads
import LowerIrUtils.Sim.Run
import LowerIrUtils.Sim.StepBudget
import LowerIrUtils.Sim.Tracing
import LowerIrUtils.Sim.Fault
import LowerIrUtils.Sim.Unsupported
import LowerIrUtils.Sim.MemoryLog
import LowerIrUtils.Sim.Typing
import LowerIrUtils.Sim.Soundness
import LowerIrUtils.Sim.BitOps
import LowerIrUtils.Sim.Shift
import LowerIrUtils.Sim.IllTyped
import LowerIrUtils.Sim.Division
import LowerIrUtils.Sim.Refinement
import LowerIrUtils.Sim.Alias
import LowerIrUtils.Sim.BlockArgs
import LowerIrUtils.Sim.Hexdump
import LowerIrUtils.Sim.Accesses
import LowerIrUtils.Sim.FloatOps
import LowerIrUtils.Sim.ControlFlow
import LowerIrUtils.Sim.Equations
import LowerIrUtils.Sim.ReferenceOps
import LowerIrUtils.Sim.ReferenceRun
import LowerIrUtils.Sim.StraightLine
import LowerIrUtils.Sim.Footprint
import LowerIrUtils.Sim.TraceLines
import LowerIrUtils.Sim.Renaming
import LowerIrUtils.Sim.Dump
import LowerIrUtils.Sim.Assertions
import LowerIrUtils.Sim.LoopBound
import LowerIrUtils.Disasm.Listing
import LowerIrUtils.Export.RustType
import LowerIrUtils.Export.Module
import LowerIrUtils.Export.Builder
import LowerIrUtils.Export.Macro
import LowerIrUtils.Export.Lower
import LowerIrUtils.Export.AbiAgreement
import LowerIrUtils.Export.CallAgreement
import LowerIrUtils.Export.Chrono
import LowerIrUtils.Export.CallResult
import LowerIrUtils.Export.Registration
import LowerIrUtils.Export.Define
import LowerIrUtils.Export.Built
import LowerIrUtils.Export.Defined
import LowerIrUtils.Export.Expr
import LowerIrUtils.Export.ExprRun
import LowerIrUtils.Export.Linking
import LowerIrUtils.Export.Wrapper
