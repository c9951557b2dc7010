import LowerIrUtils.Clif.Function
import LowerIrUtils.Machine.Env
import LowerIrUtils.Sim.Arith
import LowerIrUtils.Sim.Memory

/-!
# One instruction of the simulator

`Simulator::step` of `src/sim.rs`, its `RunState` and the functions that format the
trace.  `step` is split along the two ways its arms end: the arms of `compute` give
one value, which the end of the function binds to the result of the instruction; the
others store, leave the block, or bind results of their own.

`step` returns the state it leaves behind also where it fails, since a Rust function
that returns an error keeps what it wrote before.  Its only outcome that the source
has no name for is `StepResult.panicked`, a slice out of bounds while a call is
traced.
-/

namespace LowerIrUtils.Sim

open Clif Bits

/-- The register map of a run, a `BTreeMap<Value, SimValue>`. -/
abbrev Registers := Env Value SimValue

/-- `RunState`. -/
structure RunState where
  memory : Memory
  registers : Registers
  trace : List String
  recordTrace : Bool

namespace RunState

/-- Push a line on the trace, if there is one. -/
def log (state : RunState) (line : String) : RunState :=
  if state.recordTrace then { state with trace := state.trace ++ [line] } else state

@[simp] theorem memory_log (state : RunState) (line : String) :
    (state.log line).memory = state.memory := by
  unfold log
  split <;> rfl

@[simp] theorem registers_log (state : RunState) (line : String) :
    (state.log line).registers = state.registers := by
  unfold log
  split <;> rfl

@[simp] theorem recordTrace_log (state : RunState) (line : String) :
    (state.log line).recordTrace = state.recordTrace := by
  unfold log
  split <;> rfl

/-- The macro `get!`. -/
def get (state : RunState) (v : Value) : Except SimError SimValue :=
  match state.registers v with
  | some x => .ok x
  | none => .error (.undefinedValue v)

/-- `get!` on each value of a list in turn. -/
def getAll (state : RunState) (vs : List Value) : Except SimError (List SimValue) :=
  (state.registers.lookupAll vs).mapError .undefinedValue

end RunState

/-- `StepResult`. -/
inductive StepResult where
  | continue_
  | jump (target : Block) (params : List SimValue)
  | return_ (vals : List SimValue)
  | error (e : SimError)
  | panicked

/-! ## The trace of a call -/

/-- `std::str::from_utf8`. -/
def fromUtf8 (bytes : List Byte) : Option String :=
  String.fromUTF8? ⟨(bytes.map UInt8.ofBitVec).toArray⟩

/-- `&memory[lo..hi]`, with `none` for a panic. -/
def Memory.slice? (mem : Memory) (lo hi : Nat) : Option (List Byte) :=
  if lo ≤ hi ∧ hi ≤ mem.length then some (mem.read lo (hi - lo)) else none

/-- The text a pair of an address and a length may point to; the outer `none` is a
panic. -/
def strPreview (mem : Memory) (p l : BitVec 64) : Option (Option String) :=
  if 1 ≤ l.toInt ∧ l.toInt ≤ 64 then
    let lo := p.toNat
    let hi := min (lo + l.toNat) (2 ^ 64 - 1)
    if hi ≤ mem.length then (mem.slice? lo hi).map fromUtf8 else some none
  else some none

section Trace

variable [RustCore]

/-- The `parts` of `format_call_args`. -/
def formatCallParts (mem : Memory) : List SimValue → Option (List String)
  | [] => some []
  | .I64 p :: .I64 l :: rest => do
      match ← strPreview mem p l with
      | some s =>
          let parts ← formatCallParts mem rest
          let pointer := (SimValue.I64 p).display
          let text := RustCore.strDebug s
          some (s!"{pointer} -> {text}" :: (SimValue.I64 l).display :: parts)
      | none =>
          let parts ← formatCallParts mem (.I64 l :: rest)
          some ((SimValue.I64 p).display :: parts)
  | v :: rest => do
      let parts ← formatCallParts mem rest
      some (v.display :: parts)

/-- `format_call_args`. -/
def formatCallArgs (args : List SimValue) (mem : Memory) : Option String :=
  (formatCallParts mem args).map (", ".intercalate ·)

/-- `format_call_results`. -/
def formatCallResults (results : List Value) (dfg : DataFlowGraph) : String :=
  if results.isEmpty then ""
  else
    let parts := results.map fun v ↦
      let value := v.name
      let ty := (dfg.valueType v).name
      s!"{value}:{ty}"
    " -> " ++ ", ".intercalate parts

/-! ## The arms of `step` -/

/-- The closure `result_ty`. -/
def resultTy (func : Function) (inst : Inst) (i : Nat) : Option Ty :=
  ((func.dfg.instResults inst)[i]?).map func.dfg.valueType

/-- The address of a load or store. -/
def effectiveAddr (base : SimValue) (offset : BitVec 32) : BitVec 64 :=
  base.asU64 + offset.signExtend 64

/-- The arms of `step` that produce one value, and the arm for what is not supported. -/
def compute (func : Function) (state : RunState) (inst : Inst) :
    InstructionData → Except SimError SimValue
  | .unaryImm .iconst imm =>
      let ty := (resultTy func inst 0).getD .I64
      match SimValue.ofI64 imm ty with
      | some v => .ok v
      | none => .error (.typeMismatch s!"iconst type {ty.name}")
  | .unaryIeee32 .f32const imm => .ok (.F32 imm)
  | .unaryIeee64 .f64const imm => .ok (.F64 imm)
  | .binary opcode x y => do
      let a ← state.get x
      let b ← state.get y
      applyBinary opcode a b
  | .unary opcode arg => do
      let a ← state.get arg
      applyUnary opcode a ((resultTy func inst 0).getD a.ty)
  | .loadNoOffset .bitcast arg => do
      let a ← state.get arg
      applyUnary .bitcast a ((resultTy func inst 0).getD a.ty)
  | .intCompare _ cond x y => do
      let a ← state.get x
      let b ← state.get y
      .ok (ofBool (icmp cond a b))
  | .floatCompare _ cond x y => do
      let a ← state.get x
      let b ← state.get y
      .ok (ofBool (fcmp cond a b))
  | .ternary .select c x y => do
      let c ← state.get c
      let x ← state.get x
      let y ← state.get y
      .ok (if c.asI64 ≠ 0 then x else y)
  | .load _ arg offset => do
      let base ← state.get arg
      loadFrom state.memory (effectiveAddr base offset) ((resultTy func inst 0).getD .I64)
  | data => .error (.unsupportedOpcode data.opcode.name)

/-- Read the arguments of a branch and leave for its target. -/
def branchTo (state : RunState) (dest : BlockCall) (line : String) : RunState × StepResult :=
  match state.getAll dest.values with
  | .error e => (state, .error e)
  | .ok params => (state.log line, .jump dest.block params)

/-- The loop of the `Call` arm that fills the results with zeros. -/
def bindZeros (dfg : DataFlowGraph) : List Value → Registers → Registers × Option SimError
  | [], regs => (regs, none)
  | v :: vs, regs =>
      let ty := dfg.valueType v
      match SimValue.zeroOf ty with
      | some zero => bindZeros dfg vs (regs.insert v zero)
      | none => (regs, some (.typeMismatch s!"call result type {ty.name} not supported"))

/-- Fill the results of a call with zeros. -/
def fillResults (func : Function) (inst : Inst) (state : RunState) : RunState × StepResult :=
  match bindZeros func.dfg (func.dfg.instResults inst) state.registers with
  | (registers, none) => ({ state with registers }, .continue_)
  | (registers, some e) => ({ state with registers }, .error e)

/-- The `Call` arm. -/
def callStep (func : Function) (state : RunState) (inst : Inst) (funcRef : FuncRef)
    (args : List Value) : RunState × StepResult :=
  match state.getAll args with
  | .error e => (state, .error e)
  | .ok vals =>
      if state.recordTrace then
        match formatCallArgs vals state.memory with
        | none => (state, .panicked)
        | some formatted =>
            let callee := (func.dfg.extFuncs funcRef).name
            let results := formatCallResults (func.dfg.instResults inst) func.dfg
            fillResults func inst (state.log s!"  call {callee}({formatted}){results}")
      else fillResults func inst state

/-- The end of `step`: trace the instruction and bind what it produced. -/
def bindResults (func : Function) (inst : Inst) (opcode : Opcode) (produced : List SimValue)
    (state : RunState) : RunState :=
  let results := func.dfg.instResults inst
  let lhs := ", ".intercalate (results.map Value.name)
  let rhs := ", ".intercalate (produced.map SimValue.display)
  let assigned := if results.isEmpty then "" else s!"{lhs} = "
  let state := state.log s!"  {assigned}{opcode.name} [{rhs}]"
  { state with registers := Env.insertAll results produced state.registers }

/-- The arms whose value is `compute`d. -/
def computeStep (func : Function) (state : RunState) (inst : Inst) (data : InstructionData) :
    RunState × StepResult :=
  match compute func state inst data with
  | .error e => (state, .error e)
  | .ok v => (bindResults func inst data.opcode [v] state, .continue_)

/-- The `Store` arm. -/
def storeStep (func : Function) (state : RunState) (inst : Inst) (opcode : Opcode)
    (x p : Value) (offset : BitVec 32) : RunState × StepResult :=
  match state.get x with
  | .error e => (state, .error e)
  | .ok val =>
      match state.get p with
      | .error e => (state, .error e)
      | .ok base =>
          match storeTo state.memory (effectiveAddr base offset) val with
          | (memory, .error e) => ({ state with memory }, .error e)
          | (memory, .ok ()) => (bindResults func inst opcode [] { state with memory }, .continue_)

/-- The `Brif` arm. -/
def brifStep (state : RunState) (arg : Value) (thenDest elseDest : BlockCall) :
    RunState × StepResult :=
  match state.get arg with
  | .error e => (state, .error e)
  | .ok c =>
      let cond : Bool := c.asI64 ≠ 0
      let chosen := if cond then thenDest else elseDest
      let side := if cond then "then" else "else"
      branchTo state chosen s!"  brif {cond} -> block{chosen.block.index} ({side})"

/-- The `MultiAry` arm of a return. -/
def returnStep (state : RunState) (args : List Value) : RunState × StepResult :=
  match state.getAll args with
  | .error e => (state, .error e)
  | .ok vals =>
      let formatted := ", ".intercalate (vals.map SimValue.display)
      (state.log s!"  return [{formatted}]", .return_ vals)

/-- `Simulator::step`. -/
def step (func : Function) (state : RunState) (inst : Inst) (data : InstructionData) :
    RunState × StepResult :=
  match data with
  | .store opcode x p offset => storeStep func state inst opcode x p offset
  | .jump _ destination =>
      branchTo state destination s!"  jump block{destination.block.index}"
  | .brif _ arg thenDest elseDest => brifStep state arg thenDest elseDest
  | .multiAry .return_ args => returnStep state args
  | .call _ args funcRef => callStep func state inst funcRef args
  | data => computeStep func state inst data

end Trace

end LowerIrUtils.Sim
