import Mathlib.Data.List.Basic

/-!
# Cranelift entities, types and opcodes

The part of `cranelift_codegen::ir` that the simulator looks at: entity references,
the type lattice as far as `Type::bytes` and the scalar constants of `types` see it,
opcodes, and condition codes.

An opcode the simulator has no arm for is either one that shares an instruction
format with a supported opcode, which is listed here by name, or `Opcode.other`.
-/

namespace LowerIrUtils.Clif

/-! ## Entity references -/

/-- An SSA value. -/
structure Value where
  index : Nat
deriving DecidableEq, Repr

/-- An instruction. -/
structure Inst where
  index : Nat
deriving DecidableEq, Repr

/-- A basic block. -/
structure Block where
  index : Nat
deriving DecidableEq, Repr

/-- A reference to an external function. -/
structure FuncRef where
  index : Nat
deriving DecidableEq, Repr

namespace Value

/-- `Display` of a value. -/
def name (v : Value) : String := s!"v{v.index}"

end Value

namespace Inst

/-- `Display` of an instruction. -/
def name (i : Inst) : String := s!"inst{i.index}"

end Inst

/-! ## Types -/

/-- Cranelift's `Type`. -/
inductive Ty where
  | I8 | I16 | I32 | I64 | I128 | F16 | F32 | F64 | F128
  | vector (lane : Ty) (lanes : Nat)
deriving DecidableEq, Repr

namespace Ty

/-- `Type::bits`. -/
def bits : Ty → Nat
  | I8 => 8
  | I16 | F16 => 16
  | I32 | F32 => 32
  | I64 | F64 => 64
  | I128 | F128 => 128
  | vector lane lanes => lane.bits * lanes

/-- `Type::bytes`. -/
def bytes (ty : Ty) : Nat := (ty.bits + 7) / 8

/-- `Display` of a type. -/
def name : Ty → String
  | I8 => "i8"
  | I16 => "i16"
  | I32 => "i32"
  | I64 => "i64"
  | I128 => "i128"
  | F16 => "f16"
  | F32 => "f32"
  | F64 => "f64"
  | F128 => "f128"
  | vector lane lanes => s!"{lane.name}x{lanes}"

/-- The integer types a `SimValue` can have. -/
def isSimInt : Ty → Bool
  | I8 | I16 | I32 | I64 => true
  | _ => false

/-- The float types a `SimValue` can have. -/
def isSimFloat : Ty → Bool
  | F32 | F64 => true
  | _ => false

/-- The types a `SimValue` can have. -/
def isSim (ty : Ty) : Bool := ty.isSimInt || ty.isSimFloat

end Ty

/-! ## Opcodes and condition codes -/

/-- Cranelift's `Opcode`. -/
inductive Opcode where
  | iconst | f32const | f64const
  | iadd | isub | imul | sdiv | udiv | srem | urem
  | band | bor | bxor | ishl | ushr | sshr
  | fadd | fsub | fmul | fdiv
  | ineg | fneg | bnot | uextend | sextend | ireduce | bitcast
  | icmp | fcmp | select | load | store | call | jump | brif | return_
  -- the opcodes that share the `Load`, `Store` and `Call` formats
  | uload8 | sload8 | uload16 | sload16 | uload32 | sload32
  | istore8 | istore16 | istore32
  | return_call
  | other (name : String)
deriving DecidableEq, Repr

namespace Opcode

/-- `Display` of an opcode. -/
def name : Opcode → String
  | iconst => "iconst" | f32const => "f32const" | f64const => "f64const"
  | iadd => "iadd" | isub => "isub" | imul => "imul"
  | sdiv => "sdiv" | udiv => "udiv" | srem => "srem" | urem => "urem"
  | band => "band" | bor => "bor" | bxor => "bxor"
  | ishl => "ishl" | ushr => "ushr" | sshr => "sshr"
  | fadd => "fadd" | fsub => "fsub" | fmul => "fmul" | fdiv => "fdiv"
  | ineg => "ineg" | fneg => "fneg" | bnot => "bnot"
  | uextend => "uextend" | sextend => "sextend" | ireduce => "ireduce"
  | bitcast => "bitcast" | icmp => "icmp" | fcmp => "fcmp" | select => "select"
  | load => "load" | store => "store" | call => "call"
  | jump => "jump" | brif => "brif" | return_ => "return"
  | uload8 => "uload8" | sload8 => "sload8" | uload16 => "uload16"
  | sload16 => "sload16" | uload32 => "uload32" | sload32 => "sload32"
  | istore8 => "istore8" | istore16 => "istore16" | istore32 => "istore32"
  | return_call => "return_call"
  | other name => name

/-- The opcodes of the simulator's "What's supported" list. -/
def isSupported : Opcode → Bool
  | uload8 | sload8 | uload16 | sload16 | uload32 | sload32
  | istore8 | istore16 | istore32 | return_call | other _ => false
  | _ => true

/-- The opcodes of integer arithmetic, bitwise logic and shifts. -/
def isIntBinary : Opcode → Bool
  | iadd | isub | imul | sdiv | udiv | srem | urem
  | band | bor | bxor | ishl | ushr | sshr => true
  | _ => false

/-- The opcodes of float arithmetic. -/
def isFloatBinary : Opcode → Bool
  | fadd | fsub | fmul | fdiv => true
  | _ => false

end Opcode

/-- Cranelift's `IntCC`. -/
inductive IntCC where
  | equal | notEqual
  | signedLessThan | signedGreaterThanOrEqual
  | signedGreaterThan | signedLessThanOrEqual
  | unsignedLessThan | unsignedGreaterThanOrEqual
  | unsignedGreaterThan | unsignedLessThanOrEqual
deriving DecidableEq, Repr

/-- Cranelift's `FloatCC`. -/
inductive FloatCC where
  | ordered | unordered
  | equal | notEqual | orderedNotEqual | unorderedOrEqual
  | lessThan | lessThanOrEqual | greaterThan | greaterThanOrEqual
  | unorderedOrLessThan | unorderedOrLessThanOrEqual
  | unorderedOrGreaterThan | unorderedOrGreaterThanOrEqual
deriving DecidableEq, Repr

end LowerIrUtils.Clif
