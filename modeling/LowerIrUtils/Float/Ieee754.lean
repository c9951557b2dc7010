import Mathlib.Algebra.Order.Ring.Int

/-!
# IEEE 754 binary arithmetic on bit patterns

A `Format` fixes the widths of the exponent and fraction fields.  `decode` reads a
bit pattern as a `Datum`, `encode` rounds a datum to the nearest pattern, ties to
even, and each operation is the exact one on data followed by one rounding.

The sign and the payload of a NaN result are not fixed by the standard, nor by Rust.
They are a parameter of the arithmetic, `NanBits`, of which only that it gives NaNs is
known.  Where `encode` and `divide` come to a NaN, their pattern stands for any.
-/

namespace LowerIrUtils.Ieee754

/-- A binary interchange format. -/
structure Format where
  expBits : Nat
  fracBits : Nat

/-- Single precision. -/
def binary32 : Format := ⟨8, 23⟩

/-- Double precision. -/
def binary64 : Format := ⟨11, 52⟩

namespace Format

variable (F : Format)

/-- The weight of the sign bit. -/
def signBit : Nat := 2 ^ (F.expBits + F.fracBits)

/-- The exponent of the last place of the subnormal numbers. -/
def emin : Int := 2 - 2 ^ (F.expBits - 1) - F.fracBits

/-- The pattern of positive infinity. -/
def infBits : Nat := (2 ^ F.expBits - 1) * 2 ^ F.fracBits

/-- The pattern of a NaN: the quiet one with an empty payload, which is `f64::NAN`. -/
def nanBits : Nat := F.infBits + 2 ^ (F.fracBits - 1)

end Format

/-- A number, an infinity or a NaN.  `finite neg mant exp` is `± mant * 2 ^ exp`. -/
inductive Datum where
  | nan
  | inf (neg : Bool)
  | finite (neg : Bool) (mant : Nat) (exp : Int)
deriving DecidableEq, Repr

variable (F : Format)

/-- Read a bit pattern. -/
def decode (bits : Nat) : Datum :=
  let neg : Bool := bits / F.signBit % 2 = 1
  let exp := bits / 2 ^ F.fracBits % 2 ^ F.expBits
  let frac := bits % 2 ^ F.fracBits
  if exp = 2 ^ F.expBits - 1 then
    if frac = 0 then .inf neg else .nan
  else if exp = 0 then .finite neg frac F.emin
  else .finite neg (2 ^ F.fracBits + frac) (F.emin + exp - 1)

/-- The pattern of the positive number nearest to `num / den`, ties to even.  The
exponent is chosen so that the quotient has `fracBits + 1` digits, or is the least
one; the carry of a quotient rounded up to the next binade lands in the exponent
field by itself. -/
def roundRatio (num den : Nat) : Nat :=
  if num = 0 then 0
  else
    let e₀ : Int := (Nat.log2 num : Int) - Nat.log2 den - F.fracBits
    let e₁ : Int :=
      if num * 2 ^ (-e₀).toNat < 2 ^ F.fracBits * (den * 2 ^ e₀.toNat) then e₀ - 1 else e₀
    let e : Int := max e₁ F.emin
    let n := num * 2 ^ (-e).toNat
    let d := den * 2 ^ e.toNat
    let q := n / d
    let r := n % d
    let q' := if d < 2 * r ∨ (2 * r = d ∧ q % 2 = 1) then q + 1 else q
    min ((e - F.emin).toNat * 2 ^ F.fracBits + q') F.infBits

/-- Give a pattern a sign. -/
def withSign (neg : Bool) (bits : Nat) : Nat := if neg then F.signBit + bits else bits

/-- Round a datum to a bit pattern.  The pattern given to a NaN stands for any; `settle` puts
the one there is in its place. -/
def encode : Datum → Nat
  | .nan => F.nanBits
  | .inf neg => withSign F neg F.infBits
  | .finite neg mant exp =>
      withSign F neg (roundRatio F (mant * 2 ^ exp.toNat) (2 ^ (-exp).toNat))

/-- The signed significand of a finite number at the smaller exponent `e`. -/
def scaled (neg : Bool) (mant : Nat) (exp e : Int) : Int :=
  let m : Int := (mant * 2 ^ (exp - e).toNat : Nat)
  if neg then -m else m

namespace Datum

/-- The sign of a product or quotient is the exclusive or of the signs. -/
def neg : Datum → Bool
  | nan => false
  | inf s | finite s _ _ => s

/-- The datum with the opposite sign. -/
def negate : Datum → Datum
  | nan => nan
  | inf s => inf (!s)
  | finite s m e => finite (!s) m e

/-- The exact sum.  A zero sum is negative only if both terms are. -/
def add : Datum → Datum → Datum
  | nan, _ | _, nan => nan
  | inf s, inf t => if s = t then inf s else nan
  | inf s, finite .. | finite .., inf s => inf s
  | finite s m e, finite t n f =>
      let g := min e f
      let sum := scaled s m e g + scaled t n f g
      if sum = 0 then finite (s && t) 0 g else finite (sum < 0) sum.natAbs g

/-- The exact product. -/
def mul : Datum → Datum → Datum
  | nan, _ | _, nan => nan
  | inf s, inf t => inf (xor s t)
  | inf s, finite t n _ | finite t n _, inf s => if n = 0 then nan else inf (xor s t)
  | finite s m e, finite t n f => finite (xor s t) (m * n) (e + f)

/-- The order of two data, and `none` if one of them is a NaN. -/
def compare : Datum → Datum → Option Ordering
  | nan, _ | _, nan => none
  | inf s, inf t => some (Ord.compare (!s) (!t))
  | inf s, finite .. => some (if s then .lt else .gt)
  | finite .., inf s => some (if s then .gt else .lt)
  | finite s m e, finite t n f =>
      let g := min e f
      some (Ord.compare (scaled s m e g) (scaled t n f g))

end Datum

/-- The quotient, rounded: unlike a sum or a product it need not be a datum.  Where it is a
NaN, the pattern stands for any. -/
def divide : Datum → Datum → Nat
  | .nan, _ | _, .nan | .inf _, .inf _ => F.nanBits
  | .inf s, .finite t .. => withSign F (xor s t) F.infBits
  | .finite s .., .inf t => withSign F (xor s t) 0
  | .finite s m e, .finite t n f =>
      if n = 0 then
        if m = 0 then F.nanBits else withSign F (xor s t) F.infBits
      else
        withSign F (xor s t)
          (roundRatio F (m * 2 ^ (e - f).toNat) (n * 2 ^ (f - e).toNat))

/-- The operations of float arithmetic. -/
inductive Arith where
  | add
  | sub
  | mul
  | div
deriving DecidableEq, Repr

/-- The result of an operation, rounded once. -/
def Arith.round : Arith → Datum → Datum → Nat
  | add, a, b => encode F (a.add b)
  | sub, a, b => encode F (a.add b.negate)
  | mul, a, b => encode F (a.mul b)
  | div, a, b => divide F a b

/-! ## The two formats as bit vectors -/

/-- An `f32`, by its bit pattern. -/
abbrev F32 := BitVec 32

/-- An `f64`, by its bit pattern. -/
abbrev F64 := BitVec 64

namespace F32

/-- The datum of an `f32`. -/
def datum (x : F32) : Datum := decode binary32 x.toNat

/-- `x.is_nan()`. -/
def isNaN (x : F32) : Bool := x.datum = .nan

/-- The operation of single precision; of a NaN, only that it is one. -/
def round (op : Arith) (x y : F32) : F32 := .ofNat 32 (op.round binary32 x.datum y.datum)

/-- A result, with the bits of `nan` if it is a NaN. -/
def settle (nan : { z : F32 // z.isNaN }) (z : F32) : F32 := if z.isNaN then nan else z

/-- `-x` flips the sign bit, of a NaN too. -/
def negate (x : F32) : F32 := x ^^^ .twoPow 32 31

end F32

namespace F64

/-- The datum of an `f64`. -/
def datum (x : F64) : Datum := decode binary64 x.toNat

/-- `x.is_nan()`. -/
def isNaN (x : F64) : Bool := x.datum = .nan

/-- `x == y`. -/
def eq (x y : F64) : Bool := x.datum.compare y.datum = some .eq

/-- `x < y`. -/
def lt (x y : F64) : Bool := x.datum.compare y.datum = some .lt

/-- The operation of double precision; of a NaN, only that it is one. -/
def round (op : Arith) (x y : F64) : F64 := .ofNat 64 (op.round binary64 x.datum y.datum)

/-- A result, with the bits of `nan` if it is a NaN. -/
def settle (nan : { z : F64 // z.isNaN }) (z : F64) : F64 := if z.isNaN then nan else z

/-- `-x` flips the sign bit, of a NaN too. -/
def negate (x : F64) : F64 := x ^^^ .twoPow 64 63

end F64

/-- The bits of the NaNs that are computed, by what the machine makes of the operands: one of
them quieted, or a NaN of its own. -/
class NanBits where
  /-- The NaN of an operation whose result is one. -/
  arith : Arith → F64 → F64 → { z : F64 // z.isNaN }
  /-- `x as f64`, of a NaN. -/
  widen : F32 → { z : F64 // z.isNaN }
  /-- `x as f32`, of a NaN. -/
  narrow : F64 → { z : F32 // z.isNaN }

/-- The one quiet NaN whose sign bit is set, for every NaN that is computed. -/
@[reducible] def NanBits.quiet : NanBits where
  arith _ _ _ := ⟨0xFFF8000000000000, by decide⟩
  widen _ := ⟨0xFFF8000000000000, by decide⟩
  narrow _ := ⟨0xFFC00000, by decide⟩

variable [NanBits]

/-- `x as f64`. -/
def F32.toF64 (x : F32) : F64 :=
  F64.settle (NanBits.widen x) (.ofNat 64 (encode binary64 x.datum))

/-- `x as f32`. -/
def F64.toF32 (x : F64) : F32 :=
  F32.settle (NanBits.narrow x) (.ofNat 32 (encode binary32 x.datum))

namespace F64

/-- An operation. -/
def arith (op : Arith) (x y : F64) : F64 := settle (NanBits.arith op x y) (round op x y)

/-- `x + y`. -/
def add (x y : F64) : F64 := arith .add x y

/-- `x - y`. -/
def sub (x y : F64) : F64 := arith .sub x y

/-- `x * y`. -/
def mul (x y : F64) : F64 := arith .mul x y

/-- `x / y`. -/
def div (x y : F64) : F64 := arith .div x y

end F64

/-- `0.1 + 0.2` is one unit in the last place above `0.3`. -/
example : F64.add 0x3FB999999999999A 0x3FC999999999999A = 0x3FD3333333333334 := rfl

/-- Half the least subnormal `f32` ties to zero, anything above it does not. -/
example : F64.toF32 0x3690000000000000 = 0 ∧ F64.toF32 0x3690000000000001 = 1 := ⟨rfl, rfl⟩

end LowerIrUtils.Ieee754
