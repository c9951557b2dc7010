import LowerIrUtils.Bits.LittleEndian
import LowerIrUtils.Clif.Reference
import LowerIrUtils.Float.DoubleRounding

/-!
# Reference semantics of every supported instruction

The reference semantics of the integer instructions, extended by memory, floats, divisions
and calls.  Memory is a partial map from addresses to bytes: an access to an address that is
not mapped is out of bounds, and a store changes the bytes it covers and no others.  Floats
are rounded once.  A division without a quotient traps.  What a call does is up to a `Host`.

The machine ends with a `Result`: values returned, a trap, an access out of bounds, a float
operation that gives a NaN, or stuck where an instruction has no meaning.  A NaN that is
computed ends the machine because its sign and payload are not determined; one that is only
loaded, moved or compared has the bits it had.
-/

namespace LowerIrUtils.Clif

/-- A condition holds of the order of two floats, where `none` is for unordered ones. -/
def FloatCC.holds (cond : FloatCC) (order : Option Ordering) : Bool :=
  match cond with
  | .ordered => order.isSome
  | .unordered => order.isNone
  | .equal => order = some .eq
  | .notEqual => order ≠ some .eq
  | .orderedNotEqual => order = some .lt ∨ order = some .gt
  | .unorderedOrEqual => order = none ∨ order = some .eq
  | .lessThan => order = some .lt
  | .lessThanOrEqual => order = some .lt ∨ order = some .eq
  | .greaterThan => order = some .gt
  | .greaterThanOrEqual => order = some .gt ∨ order = some .eq
  | .unorderedOrLessThan => order = none ∨ order = some .lt
  | .unorderedOrLessThanOrEqual => order ≠ some .gt
  | .unorderedOrGreaterThan => order = none ∨ order = some .gt
  | .unorderedOrGreaterThanOrEqual => order ≠ some .lt

/-- The operation of a float instruction. -/
def Opcode.arith : Opcode → Option Ieee754.Arith
  | .fadd => some .add
  | .fsub => some .sub
  | .fmul => some .mul
  | .fdiv => some .div
  | _ => none

theorem Opcode.exists_arith {op : Opcode} (hop : op.isFloatBinary) : ∃ f, op.arith = some f := by
  cases op <;> first | exact ⟨_, rfl⟩ | cases hop

end LowerIrUtils.Clif

namespace LowerIrUtils.Ieee754

open Clif

/-- The operation of single precision; of a NaN, only that it is one. -/
def F32.apply (op : Opcode) (x y : F32) : Option F32 := op.arith.map (F32.round · x y)

/-- The operation of double precision; of a NaN, only that it is one. -/
def F64.apply (op : Opcode) (x y : F64) : Option F64 := op.arith.map (F64.round · x y)

end LowerIrUtils.Ieee754

namespace LowerIrUtils.Clif.Reference

open Bits Ieee754

/-! ## Memory -/

/-- The bytes of the addresses that are mapped. -/
abbrev Mem := Nat → Option Byte

namespace Mem

/-- The `n` bytes from `addr` on, if all of them are mapped. -/
def load (mem : Mem) (addr : Nat) : Nat → Option (List Byte)
  | 0 => some []
  | n + 1 => do
      let b ← mem addr
      let bs ← load mem (addr + 1) n
      some (b :: bs)

/-- Change the bytes from `addr` on. -/
def store (mem : Mem) (addr : Nat) : List Byte → Mem
  | [] => mem
  | b :: bs => fun a ↦ if a = addr then some b else store mem (addr + 1) bs a

end Mem

/-! ## Values -/

namespace BitVal

/-- A value from its bytes. -/
def ofBytes (ty : Ty) (bytes : List Byte) : BitVal := ⟨ty, .ofNat ty.bits (ofLe bytes)⟩

/-- The bytes of a value. -/
def toBytes (a : BitVal) : List Byte := toLe a.ty.bytes a.bits.toNat

/-- The number that a float stands for. -/
def datum : BitVal → Datum
  | ⟨.F32, x⟩ => F32.datum x
  | ⟨.F64, x⟩ => F64.datum x
  | _ => .nan

/-- A float operation on two floats of one type; of a NaN, only that it is one. -/
def floatBinary (op : Opcode) : BitVal → BitVal → Option BitVal
  | ⟨.F32, x⟩, ⟨.F32, y⟩ => (F32.apply op x y).map (mk .F32)
  | ⟨.F64, x⟩, ⟨.F64, y⟩ => (F64.apply op x y).map (mk .F64)
  | _, _ => none

/-- The float with the opposite sign. -/
def fneg : BitVal → Option BitVal
  | ⟨.F32, x⟩ => some ⟨.F32, F32.negate x⟩
  | ⟨.F64, x⟩ => some ⟨.F64, F64.negate x⟩
  | _ => none

/-- A comparison of two floats of one type. -/
def floatCompare (cond : FloatCC) (a b : BitVal) : Option BitVal :=
  if a.ty.isSimFloat ∧ b.ty = a.ty then some (ofBool (cond.holds (a.datum.compare b.datum)))
  else none

/-- The value with the same bits at a type of the same width. -/
def bitcast (a : BitVal) (ty : Ty) : Option BitVal :=
  if h : a.ty.bits = ty.bits then some ⟨ty, a.bits.cast h⟩ else none

/-- The address of an access at a pointer. -/
def address (base : BitVal) (offset : BitVec 32) : Option Nat := do
  let p : BitVec 64 ← base.bitsAt .I64
  some (p + offset.signExtend 64).toNat

end BitVal

/-- The quotient or remainder, if there is one of width `w`. -/
def quotient {w : Nat} (op : Opcode) (x y : BitVec w) : Option (BitVec w) :=
  if y = 0 then none
  else
    match op with
    | .udiv => some (x / y)
    | .urem => some (x % y)
    | .sdiv => if x = .intMin w ∧ y = -1 then none else some (.ofInt w (x.toInt.tdiv y.toInt))
    | .srem => some (.ofInt w (x.toInt.tmod y.toInt))
    | _ => none

/-! ## Execution -/

/-- What a call does: the values it returns, and what it makes of the memory. -/
abbrev Host := ExtFuncData → List BitVal → Mem → List BitVal × Mem

/-- A host that returns zeros. -/
def Host.stub : Host := fun callee _ mem ↦ (callee.signature.returns.map fun ty ↦ ⟨ty, 0⟩, mem)

/-- How an execution ends. -/
inductive Result where
  | returned (vals : List BitVal)
  | trapped
  | outOfBounds (addr size : Nat)
  | nan
  | stuck

namespace Full

/-- A configuration. -/
inductive Config where
  | running (p : Function.Point) (env : BitEnv) (mem : Mem)
  | ended (result : Result) (mem : Mem)

/-- The configuration of the integer machine, with a memory. -/
def Config.ofInteger (mem : Mem) : Reference.Config → Config
  | .running p env => .running p env mem
  | .returned vals => .ended (.returned vals) mem
  | .stuck => .ended .stuck mem

/-- The value of an instruction with a result of type `ty` that is no integer instruction,
divisions and float arithmetic left aside. -/
def eval (env : BitEnv) (ty : Ty) : InstructionData → Option BitVal
  | .unaryIeee32 .f32const imm => some ⟨.F32, imm⟩
  | .unaryIeee64 .f64const imm => some ⟨.F64, imm⟩
  | .unary .fneg x => do
      let a ← env x
      a.fneg
  | .loadNoOffset .bitcast x => do
      let a ← env x
      a.bitcast ty
  | .floatCompare .fcmp cond x y => do
      let a ← env x
      let b ← env y
      a.floatCompare cond b
  | _ => none

variable (func : Function) (p : Function.Point) (env : BitEnv) (mem : Mem) (inst : Inst)

/-- Bind the value of the instruction to its result and go on to the next one. -/
def assign (value : Ty → Option BitVal) : Config :=
  match func.dfg.instResults inst with
  | [r] =>
      match value (func.dfg.valueType r) with
      | some v => .running ⟨p.block, p.index + 1⟩ (env.insert r v) mem
      | none => .ended .stuck mem
  | _ => .ended .stuck mem

/-- Divide. -/
def divide (op : Opcode) (x y : Value) : Config :=
  match env x, env y with
  | some a, some b =>
      match b.bitsAt a.ty with
      | some bits =>
          match quotient op a.bits bits with
          | some q => assign func p env mem inst fun _ ↦ some ⟨a.ty, q⟩
          | none => .ended .trapped mem
      | none => .ended .stuck mem
  | _, _ => .ended .stuck mem

/-- Compute on floats.  A NaN has no bits that could be bound. -/
def floatArith (op : Opcode) (x y : Value) : Config :=
  match env x, env y with
  | some a, some b =>
      match a.floatBinary op b with
      | some v =>
          if v.datum = .nan then .ended .nan mem
          else assign func p env mem inst fun _ ↦ some v
      | none => .ended .stuck mem
  | _, _ => .ended .stuck mem

/-- Load the result of the instruction. -/
def load (x : Value) (offset : BitVec 32) : Config :=
  match (env x).bind (·.address offset), func.dfg.instResults inst with
  | some addr, [r] =>
      let ty := func.dfg.valueType r
      match mem.load addr ty.bytes with
      | some bytes => .running ⟨p.block, p.index + 1⟩ (env.insert r (.ofBytes ty bytes)) mem
      | none => .ended (.outOfBounds addr ty.bytes) mem
  | _, _ => .ended .stuck mem

/-- Store a value. -/
def store (x pointer : Value) (offset : BitVec 32) : Config :=
  match env x, (env pointer).bind (·.address offset) with
  | some a, some addr =>
      match mem.load addr a.ty.bytes with
      | some _ => .running ⟨p.block, p.index + 1⟩ env (mem.store addr a.toBytes)
      | none => .ended (.outOfBounds addr a.ty.bytes) mem
  | _, _ => .ended .stuck mem

/-- Call the host. -/
def call (host : Host) (args : List Value) (funcRef : FuncRef) : Config :=
  match env.lookupAll args with
  | .ok vals =>
      let (results, mem) := host (func.dfg.extFuncs funcRef) vals mem
      .running ⟨p.block, p.index + 1⟩ (Env.insertAll (func.dfg.instResults inst) results env) mem
  | .error _ => .ended .stuck mem

/-- Execute the instruction at `p`. -/
def exec (host : Host) (data : InstructionData) : Config :=
  if data.opcode.isReference then .ofInteger mem (Reference.exec func p env inst data)
  else
    match data with
    | .load .load x offset => load func p env mem inst x offset
    | .store .store x pointer offset => store p env mem x pointer offset
    | .call .call args funcRef => call func p env mem inst host args funcRef
    | .binary op x y =>
        if op.isIntBinary then divide func p env mem inst op x y
        else floatArith func p env mem inst op x y
    | data => assign func p env mem inst fun ty ↦ eval env ty data

/-- The machine. -/
def machine (host : Host) : Machine Config (Result × Mem) where
  done
    | .running .. => none
    | .ended result mem => some (result, mem)
  next
    | .running p env mem =>
        match func.instAt p with
        | some inst => exec func p env mem inst host (func.data inst)
        | none => .ended .stuck mem
    | config => config

/-- Where a function starts. -/
def start (args : List BitVal) : Config :=
  match func.layout.entryBlock with
  | some entry =>
      .running ⟨entry, 0⟩ (Env.insertAll (func.dfg.blockParams entry) args .empty) mem
  | none => .ended .stuck mem

variable {func p env mem inst} {host : Host}

theorem next_of_instAt (env : BitEnv) (hinst : func.instAt p = some inst) :
    (machine func host).next (.running p env mem) =
      exec func p env mem inst host (func.data inst) := by
  simp only [machine, hinst]

/-- A division of two values of one type. -/
theorem exec_division {op : Opcode} (href : op.isReference = false) (hop : op.isIntBinary)
    {x y r : Value} {ty : Ty} {a b : BitVec ty.bits} (hx : env x = some ⟨ty, a⟩)
    (hy : env y = some ⟨ty, b⟩) (hr : func.dfg.instResults inst = [r]) :
    exec func p env mem inst host (.binary op x y) =
      (quotient op a b).elim (.ended .trapped mem) fun q ↦
        .running ⟨p.block, p.index + 1⟩ (env.insert r ⟨ty, q⟩) mem := by
  have hexec : exec func p env mem inst host (.binary op x y) =
      divide func p env mem inst op x y := by
    show (if op.isReference then _ else if op.isIntBinary then _ else _) = _
    rw [href, hop]
    rfl
  rw [hexec]
  unfold divide
  simp only [hx, hy, BitVal.bitsAt_mk]
  cases quotient op a b with
  | none => rfl
  | some q => simp only [assign, hr, Option.elim_some]

/-- Where the machine has a result it stays as it is. -/
theorem next_of_done (c : Config) (r : Result × Mem) (h : (machine func host).done c = some r) :
    (machine func host).next c = c := by
  cases c with
  | running p env mem => cases h
  | ended result mem => rfl

end Full

end LowerIrUtils.Clif.Reference
