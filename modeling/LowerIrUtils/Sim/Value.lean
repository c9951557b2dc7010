import LowerIrUtils.Clif.Types
import LowerIrUtils.Float.Ieee754

/-!
# Values and errors of the simulator

`SimValue` and `SimError` of `src/sim.rs`.  A signed or unsigned Rust integer is the
bit vector of its width and a float is its bit pattern, so that `as` between integer
types is `signExtend` or `setWidth` and `to_bits`/`from_bits` are the identity.

What Rust leaves open, or to its core library, is a parameter of the model, `RustCore`:
the bits of the NaNs that are computed, and the text of a float and of a string literal,
which only ever reaches the trace.
-/

namespace LowerIrUtils.Sim

open Clif Ieee754

/-- The float arithmetic and the formatting of Rust's core library that the simulator uses. -/
class RustCore extends NanBits where
  /-- `Display for f32`. -/
  f32 : F32 → String
  /-- `Display for f64`. -/
  f64 : F64 → String
  /-- `Debug for str`. -/
  strDebug : String → String

/-- A library that prints nothing, for runs whose trace is not looked at. -/
@[reducible] def RustCore.blank : RustCore :=
  { NanBits.quiet with f32 := fun _ ↦ "", f64 := fun _ ↦ "", strDebug := fun _ ↦ "" }

/-- `SimValue`. -/
inductive SimValue where
  | I8 (x : BitVec 8)
  | I16 (x : BitVec 16)
  | I32 (x : BitVec 32)
  | I64 (x : BitVec 64)
  | F32 (x : F32)
  | F64 (x : F64)
deriving DecidableEq, Repr

namespace SimValue

/-- `SimValue::as_u64`: integers sign-extend, floats give their bits. -/
def asU64 : SimValue → BitVec 64
  | I8 x => x.signExtend 64
  | I16 x => x.signExtend 64
  | I32 x => x.signExtend 64
  | I64 x => x
  | F32 x => x.setWidth 64
  | F64 x => x

/-- `SimValue::as_i64`. -/
def asI64 : SimValue → BitVec 64
  | I8 x => x.signExtend 64
  | I16 x => x.signExtend 64
  | I32 x => x.signExtend 64
  | I64 x => x
  | F32 x => x.setWidth 64
  | F64 x => x

/-- The two coercions give the same bits. -/
theorem asI64_eq_asU64 (v : SimValue) : v.asI64 = v.asU64 := by
  cases v <;> rfl

/-- `SimValue::zero_of`. -/
def zeroOf : Ty → Option SimValue
  | .I8 => some (I8 0)
  | .I16 => some (I16 0)
  | .I32 => some (I32 0)
  | .I64 => some (I64 0)
  | .F32 => some (F32 0)
  | .F64 => some (F64 0)
  | _ => none

/-- `SimValue::ty`. -/
def ty : SimValue → Ty
  | I8 _ => .I8
  | I16 _ => .I16
  | I32 _ => .I32
  | I64 _ => .I64
  | F32 _ => .F32
  | F64 _ => .F64

/-- The match that turns a raw `i64` into a value of an integer type, by `as`. -/
def ofI64 (raw : BitVec 64) : Ty → Option SimValue
  | .I8 => some (I8 (raw.setWidth 8))
  | .I16 => some (I16 (raw.setWidth 16))
  | .I32 => some (I32 (raw.setWidth 32))
  | .I64 => some (I64 raw)
  | _ => none

/-- `Display for SimValue`. -/
def display [RustCore] : SimValue → String
  | I8 x => s!"I8({x.toInt})"
  | I16 x => s!"I16({x.toInt})"
  | I32 x => s!"I32({x.toInt})"
  | I64 x => s!"I64({x.toInt})"
  | F32 x => s!"F32({RustCore.f32 x})"
  | F64 x => s!"F64({RustCore.f64 x})"

/-! ## Types of values -/

/-- There is a zero of exactly the types a `SimValue` can have. -/
theorem isSome_zeroOf (t : Ty) : (zeroOf t).isSome = t.isSim := by
  cases t <;> rfl

/-- A raw integer taken at an integer type has that type. -/
theorem ty_ofI64 {raw : BitVec 64} {t : Ty} {v : SimValue} (h : ofI64 raw t = some v) :
    v.ty = t := by
  cases t <;> cases h <;> rfl

/-- A raw integer can be taken at exactly the simulated integer types. -/
theorem isSome_ofI64 (raw : BitVec 64) (t : Ty) : (ofI64 raw t).isSome = t.isSimInt := by
  cases t <;> rfl

theorem exists_ofI64 (raw : BitVec 64) {t : Ty} (h : t.isSimInt) :
    ∃ v, ofI64 raw t = some v ∧ v.ty = t := by
  obtain ⟨v, hv⟩ := Option.isSome_iff_exists.mp ((isSome_ofI64 raw t).trans h)
  exact ⟨v, hv, ty_ofI64 hv⟩

end SimValue

/-- `SimError`. -/
inductive SimError where
  | unsupportedOpcode (name : String)
  | outOfBounds (addr size memoryLen : Nat)
  | undefinedValue (v : Value)
  | typeMismatch (what : String)
  | stepLimitExceeded (limit : Nat)
deriving DecidableEq, Repr

namespace SimError

/-- `Display for SimError`. -/
def display : SimError → String
  | unsupportedOpcode name => s!"unsupported opcode `{name}`"
  | outOfBounds addr size memoryLen =>
      s!"out-of-bounds access: addr=0x{String.ofList (Nat.toDigits 16 addr)} size={size} " ++
        s!"memory_len={memoryLen}"
  | undefinedValue v => s!"undefined SSA value {v.name}"
  | typeMismatch what => s!"type mismatch: {what}"
  | stepLimitExceeded limit =>
      s!"step limit exceeded ({limit} instructions) — possible infinite loop"

end SimError

end LowerIrUtils.Sim
