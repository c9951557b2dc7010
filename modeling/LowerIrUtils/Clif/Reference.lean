import LowerIrUtils.Clif.Function
import LowerIrUtils.Machine.Budget
import LowerIrUtils.Machine.Env

/-!
# Reference semantics of the integer instructions

What the integer instructions of the IR mean, stated without the simulator.  A value of
an integer type is a bit vector of the width of the type; arithmetic is that of bit
vectors, a shift amount is taken modulo the width, and a comparison gives `I8` 0 or 1.
Execution is a machine over environments that moves by one instruction at a time and
passes the arguments of a branch all at once.

An instruction outside this fragment, or one whose operands are unbound or of different
types, leaves the machine stuck.
-/

namespace LowerIrUtils.Clif

/-- The opcodes with a reference semantics. -/
def Opcode.isReference : Opcode → Bool
  | iconst | iadd | isub | imul | band | bor | bxor | ishl | ushr | sshr
  | ineg | bnot | icmp | select | uextend | sextend | ireduce
  | jump | brif | return_ => true
  | _ => false

theorem Opcode.isReference_of_isFloatBinary {op : Opcode} (h : op.isFloatBinary) :
    op.isReference = false := by
  cases op <;> first | rfl | cases h

/-- Two integers of width `w` compare by the condition. -/
def IntCC.holds {w : Nat} (cond : IntCC) (x y : BitVec w) : Bool :=
  match cond with
  | .equal => x = y
  | .notEqual => x ≠ y
  | .signedLessThan => x.slt y
  | .signedLessThanOrEqual => x.sle y
  | .signedGreaterThan => y.slt x
  | .signedGreaterThanOrEqual => y.sle x
  | .unsignedLessThan => x.ult y
  | .unsignedLessThanOrEqual => x.ule y
  | .unsignedGreaterThan => y.ult x
  | .unsignedGreaterThanOrEqual => y.ule x

namespace Reference

/-- A value: a bit vector of the width of its type. -/
structure BitVal where
  ty : Ty
  bits : BitVec ty.bits
deriving DecidableEq

namespace BitVal

/-- The truth value of a comparison. -/
def ofBool (b : Bool) : BitVal := ⟨.I8, if b then 1 else 0⟩

/-- A condition holds if any bit is set. -/
def isTrue (c : BitVal) : Bool := c.bits ≠ 0

/-- The bits of a value of type `ty`. -/
def bitsAt (a : BitVal) (ty : Ty) : Option (BitVec ty.bits) :=
  if h : a.ty = ty then some (h ▸ a.bits) else none

@[simp] theorem bitsAt_mk {ty : Ty} (x : BitVec ty.bits) : bitsAt ⟨ty, x⟩ ty = some x :=
  dif_pos rfl

end BitVal

/-! ## Operations -/

/-- The operations on two operands of width `w`. -/
def binary {w : Nat} (op : Opcode) (x y : BitVec w) : Option (BitVec w) :=
  match op with
  | .iadd => some (x + y)
  | .isub => some (x - y)
  | .imul => some (x * y)
  | .band => some (x &&& y)
  | .bor => some (x ||| y)
  | .bxor => some (x ^^^ y)
  | .ishl => some (x <<< (y.toNat % w))
  | .ushr => some (x >>> (y.toNat % w))
  | .sshr => some (x.sshiftRight (y.toNat % w))
  | _ => none

namespace BitVal

/-- An operation on two values of one type. -/
def binary (op : Opcode) (a b : BitVal) : Option BitVal := do
  let y ← b.bitsAt a.ty
  let r ← Reference.binary op a.bits y
  some ⟨a.ty, r⟩

theorem binary_mk (op : Opcode) {ty : Ty} (x y : BitVec ty.bits) :
    binary op ⟨ty, x⟩ ⟨ty, y⟩ = (Reference.binary op x y).map (mk ty) := by
  simp only [binary, bitsAt_mk, Option.bind_eq_bind, Option.bind_some]
  cases Reference.binary op x y <;> rfl

/-- A comparison of two values of one type. -/
def compare (cond : IntCC) (a b : BitVal) : Option BitVal := do
  let y ← b.bitsAt a.ty
  some (ofBool (cond.holds a.bits y))

theorem compare_mk (cond : IntCC) {ty : Ty} (x y : BitVec ty.bits) :
    compare cond ⟨ty, x⟩ ⟨ty, y⟩ = some (ofBool (cond.holds x y)) := by
  simp only [compare, bitsAt_mk, Option.bind_eq_bind, Option.bind_some]

/-- An operation on one value, with a result of type `ty`. -/
def unary (op : Opcode) (a : BitVal) (ty : Ty) : Option BitVal :=
  match op with
  | .ineg => some ⟨a.ty, -a.bits⟩
  | .bnot => some ⟨a.ty, ~~~a.bits⟩
  | .uextend => some ⟨ty, a.bits.setWidth ty.bits⟩
  | .sextend => some ⟨ty, a.bits.signExtend ty.bits⟩
  | .ireduce => some ⟨ty, a.bits.setWidth ty.bits⟩
  | _ => none

end BitVal

/-! ## Execution -/

/-- An environment. -/
abbrev BitEnv := Env Value BitVal

/-- The value of an instruction with a result of type `ty`. -/
def eval (env : BitEnv) (ty : Ty) : InstructionData → Option BitVal
  | .unaryImm .iconst imm => some ⟨ty, imm.setWidth ty.bits⟩
  | .binary op x y => do
      let a ← env x
      let b ← env y
      a.binary op b
  | .unary op x => do
      let a ← env x
      a.unary op ty
  | .intCompare .icmp cond x y => do
      let a ← env x
      let b ← env y
      a.compare cond b
  | .ternary .select c x y => do
      let c ← env c
      let x ← env x
      let y ← env y
      some (if c.isTrue then x else y)
  | _ => none

/-- A configuration. -/
inductive Config where
  | running (p : Function.Point) (env : BitEnv)
  | returned (vals : List BitVal)
  | stuck

/-- Enter the target of a branch. -/
def enter (func : Function) (env : BitEnv) (dest : BlockCall) : Config :=
  match env.lookupAll dest.values with
  | .ok vals => .running ⟨dest.block, 0⟩ (Env.insertAll (func.dfg.blockParams dest.block) vals env)
  | .error _ => .stuck

/-- Bind the value of the instruction to its result and go on to the next one. -/
def assign (func : Function) (p : Function.Point) (env : BitEnv) (inst : Inst)
    (data : InstructionData) : Config :=
  match func.dfg.instResults inst with
  | [r] =>
      match eval env (func.dfg.valueType r) data with
      | some v => .running ⟨p.block, p.index + 1⟩ (env.insert r v)
      | none => .stuck
  | _ => .stuck

/-- Execute the instruction at `p`. -/
def exec (func : Function) (p : Function.Point) (env : BitEnv) (inst : Inst) :
    InstructionData → Config
  | .jump _ dest => enter func env dest
  | .brif _ c thenDest elseDest =>
      match env c with
      | some c => enter func env (if c.isTrue then thenDest else elseDest)
      | none => .stuck
  | .multiAry .return_ args =>
      match env.lookupAll args with
      | .ok vals => .returned vals
      | .error _ => .stuck
  | data => assign func p env inst data

theorem exec_brif {func : Function} {p : Function.Point} {env : BitEnv} {inst : Inst}
    {opcode : Opcode} {c : Value} {b : BitVal} (h : env c = some b)
    (thenDest elseDest : BlockCall) :
    exec func p env inst (.brif opcode c thenDest elseDest) =
      enter func env (if b.isTrue then thenDest else elseDest) := by
  rw [exec, h]

/-- The machine; a stuck configuration has a result, but no values. -/
def machine (func : Function) : Machine Config (Option (List BitVal)) where
  done
    | .running .. => none
    | .returned vals => some (some vals)
    | .stuck => some none
  next
    | .running p env =>
        match func.instAt p with
        | some inst => exec func p env inst (func.data inst)
        | none => .stuck
    | config => config

/-- Where a function starts. -/
def start (func : Function) (args : List BitVal) : Config :=
  match func.layout.entryBlock with
  | some entry =>
      .running ⟨entry, 0⟩ (Env.insertAll (func.dfg.blockParams entry) args .empty)
  | none => .stuck

/-- The function returns `vals` after executing `k` instructions. -/
def Returns (func : Function) (args : List BitVal) (k : Nat) (vals : List BitVal) : Prop :=
  (machine func).HaltsAt (start func args) k (some vals)

end Reference

end LowerIrUtils.Clif
