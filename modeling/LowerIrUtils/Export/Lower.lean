import LowerIrUtils.Export.Builder
import LowerIrUtils.Export.Macro
import LowerIrUtils.Sim.BitOps

/-!
# Lowering arguments

The `JitArg` impls of `src/abi.rs` and `src/external/chrono.rs`, and `jit_call!`.  A Rust
value is its bits, and a reference to host data is the address of the data on a 64-bit
host.  Each impl appends to the buffer `out`; the constants among what it appends are
instructions it has emitted.

`RustArg.lanes` says in one table what the callee is to receive for an argument, and
`lower_spec` that every impl does so: `Emits` is the relation between the builder before
and after, the lanes and the values appended for them.
-/

namespace LowerIrUtils.Export

open Clif Sim

/-- What the crate uses of `chrono`: the naive types, the parts it encodes, and the
constructors its documentation gives for the callee.  An `i32` or `u32` is its bits. -/
structure Chrono where
  NaiveDate : Type
  NaiveTime : Type
  NaiveDateTime : Type
  numDaysFromCe : NaiveDate → BitVec 32
  numSecondsFromMidnight : NaiveTime → BitVec 32
  nanosecond : NaiveTime → BitVec 32
  date : NaiveDateTime → NaiveDate
  time : NaiveDateTime → NaiveTime
  fromNumDaysFromCeOpt : BitVec 32 → Option NaiveDate
  fromNumSecondsFromMidnightOpt : (secs nano : BitVec 32) → Option NaiveTime
  andTime : NaiveDate → NaiveTime → NaiveDateTime

/-- The values of a primitive type, on a 64-bit host. -/
def Scalar.Repr : Scalar → Type
  | i8 | u8 => BitVec 8
  | i16 | u16 => BitVec 16
  | i32 | u32 | f32 => BitVec 32
  | i64 | u64 | f64 | usize | isize => BitVec 64
  | bool => Bool

/-- A value of a type with a `JitArg` impl. -/
inductive RustArg (C : Chrono) where
  | value (v : Value)
  | array (vs : List Value)
  | scalar (s : Scalar) (x : s.Repr)
  /-- `*const T`, `*mut T`, `&'static T` or `&'static mut T` with a `Sized` pointee. -/
  | pointer (kind : PointerKind) (pointee : RustTy Empty) (sized : pointee.isSized)
      (addr : BitVec 64)
  | str (ptr len : BitVec 64)
  | slice (ptr len : BitVec 64)
  | jitNaiveDate (d : C.NaiveDate)
  | jitNaiveTime (t : C.NaiveTime)
  | jitNaiveDateTime (dt : C.NaiveDateTime)

/-! ## The impls -/

namespace TypedBuilder

/-- `out.push(bcx.ins().iconst(ty, imm))`. -/
def pushIconst (bcx : TypedBuilder) (out : List Value) (ty : Ty) (imm : BitVec 64) :
    TypedBuilder × List Value :=
  let (bcx, v) := bcx.iconst ty imm
  (bcx, out ++ [v])

/-- `out.push(bcx.ins().f32const(x))`. -/
def pushF32const (bcx : TypedBuilder) (out : List Value) (x : BitVec 32) :
    TypedBuilder × List Value :=
  let (bcx, v) := bcx.f32const x
  (bcx, out ++ [v])

/-- `out.push(bcx.ins().f64const(x))`. -/
def pushF64const (bcx : TypedBuilder) (out : List Value) (x : BitVec 64) :
    TypedBuilder × List Value :=
  let (bcx, v) := bcx.f64const x
  (bcx, out ++ [v])

end TypedBuilder

/-- `JitArg` for the primitive types; `self as i64` extends by the signedness of the type. -/
def Scalar.lower (ptrTy : Ty) :
    (s : Scalar) → s.Repr → TypedBuilder → List Value → TypedBuilder × List Value
  | i8, (x : BitVec 8), bcx, out => bcx.pushIconst out .I8 (x.signExtend 64)
  | u8, (x : BitVec 8), bcx, out => bcx.pushIconst out .I8 (x.setWidth 64)
  | i16, (x : BitVec 16), bcx, out => bcx.pushIconst out .I16 (x.signExtend 64)
  | u16, (x : BitVec 16), bcx, out => bcx.pushIconst out .I16 (x.setWidth 64)
  | i32, (x : BitVec 32), bcx, out => bcx.pushIconst out .I32 (x.signExtend 64)
  | u32, (x : BitVec 32), bcx, out => bcx.pushIconst out .I32 (x.setWidth 64)
  | i64, (x : BitVec 64), bcx, out => bcx.pushIconst out .I64 x
  | u64, (x : BitVec 64), bcx, out => bcx.pushIconst out .I64 x
  | bool, (b : Bool), bcx, out => bcx.pushIconst out .I8 (if b then 1 else 0)
  | usize, (x : BitVec 64), bcx, out => bcx.pushIconst out ptrTy x
  | isize, (x : BitVec 64), bcx, out => bcx.pushIconst out ptrTy x
  | f32, (x : BitVec 32), bcx, out => bcx.pushF32const out x
  | f64, (x : BitVec 64), bcx, out => bcx.pushF64const out x

namespace RustArg

variable {C : Chrono}

/-- `JitArg` for `JitNaiveDate`. -/
def lowerNaiveDate (ptrTy : Ty) (d : C.NaiveDate) (bcx : TypedBuilder) (out : List Value) :
    TypedBuilder × List Value :=
  Scalar.i32.lower ptrTy (C.numDaysFromCe d) bcx out

/-- `JitArg` for `JitNaiveTime`. -/
def lowerNaiveTime (ptrTy : Ty) (t : C.NaiveTime) (bcx : TypedBuilder) (out : List Value) :
    TypedBuilder × List Value :=
  let (bcx, out) := Scalar.i32.lower ptrTy (C.numSecondsFromMidnight t) bcx out
  Scalar.i32.lower ptrTy (C.nanosecond t) bcx out

/-- `JitArg::lower`. -/
def lower (ptrTy : Ty) : RustArg C → TypedBuilder → List Value → TypedBuilder × List Value
  | value v, bcx, out => (bcx, out ++ [v])
  | array vs, bcx, out => (bcx, out ++ vs)
  | scalar s x, bcx, out => s.lower ptrTy x bcx out
  | pointer _ _ _ addr, bcx, out => bcx.pushIconst out ptrTy addr
  | str ptr len, bcx, out =>
      let (bcx, out) := bcx.pushIconst out ptrTy ptr
      bcx.pushIconst out ptrTy len
  | slice ptr len, bcx, out =>
      let (bcx, out) := bcx.pushIconst out ptrTy ptr
      bcx.pushIconst out ptrTy len
  | jitNaiveDate d, bcx, out => lowerNaiveDate ptrTy d bcx out
  | jitNaiveTime t, bcx, out => lowerNaiveTime ptrTy t bcx out
  | jitNaiveDateTime dt, bcx, out =>
      let (bcx, out) := lowerNaiveDate ptrTy (C.date dt) bcx out
      lowerNaiveTime ptrTy (C.time dt) bcx out

/-- The arguments of a call, lowered in turn into one buffer. -/
def lowerAll (ptrTy : Ty) : List (RustArg C) → TypedBuilder → List Value →
    TypedBuilder × List Value
  | [], bcx, out => (bcx, out)
  | arg :: args, bcx, out =>
      let (bcx, out) := arg.lower ptrTy bcx out
      lowerAll ptrTy args bcx out

end RustArg

/-- `jit_call!`. -/
def jitCall {C : Chrono} (bcx : TypedBuilder) (ptrTy : Ty) (callee : FuncRef)
    (args : List (RustArg C)) : TypedBuilder × Inst :=
  let (bcx, argsBuf) := RustArg.lowerAll ptrTy args bcx []
  bcx.insCall callee argsBuf

/-- The call that the helper `call` emits. -/
def helperCall {C : Chrono} (bcx : TypedBuilder) (module : JITModule) (id : FuncId)
    (args : List (RustArg C)) : TypedBuilder × Inst :=
  let ptrTy := module.pointerType
  let (bcx, callee) := bcx.declareFuncInFunc module id
  let (bcx, argsBuf) := RustArg.lowerAll ptrTy args bcx []
  bcx.insCall callee argsBuf

/-! ## As trait objects -/

namespace RustArg

variable {C : Chrono}

/-- What lowering does with the buffer is to append to it. -/
theorem lower_eq_append (ptrTy : Ty) (arg : RustArg C) (bcx : TypedBuilder) (out : List Value) :
    arg.lower ptrTy bcx out =
      ((arg.lower ptrTy bcx []).1, out ++ (arg.lower ptrTy bcx []).2) := by
  cases arg with
  | scalar s x => cases s <;> rfl
  | str ptr len => exact Prod.ext rfl (List.append_assoc out [_] [_])
  | slice ptr len => exact Prod.ext rfl (List.append_assoc out [_] [_])
  | jitNaiveTime t => exact Prod.ext rfl (List.append_assoc out [_] [_])
  | jitNaiveDateTime dt =>
      refine Prod.ext rfl ?_
      show ((out ++ [_]) ++ [_]) ++ [_] = out ++ [_, _, _]
      rw [List.append_assoc, List.append_assoc]
      rfl
  | _ => rfl

theorem lowerAll_eq_append (ptrTy : Ty) (args : List (RustArg C)) (bcx : TypedBuilder)
    (out : List Value) :
    lowerAll ptrTy args bcx out =
      ((lowerAll ptrTy args bcx []).1, out ++ (lowerAll ptrTy args bcx []).2) := by
  induction args generalizing bcx out with
  | nil => exact Prod.ext rfl (List.append_nil out).symm
  | cons arg args ih =>
      simp only [lowerAll]
      rw [lower_eq_append ptrTy arg bcx out, ih _ (out ++ _), ih _ (arg.lower ptrTy bcx []).2]
      exact Prod.ext rfl (List.append_assoc _ _ _)

theorem extFuncs_lower (ptrTy : Ty) (arg : RustArg C) (bcx : TypedBuilder) (out : List Value) :
    (arg.lower ptrTy bcx out).1.extFuncs = bcx.extFuncs := by
  cases arg with
  | scalar s x => cases s <;> rfl
  | _ => rfl

/-- The argument as one of a generic helper, which knows only that it has a `JitArg` impl. -/
def jitArg (arg : RustArg C) : JitArg where
  lower ptrTy builder :=
    let (bcx, vs) := arg.lower ptrTy ⟨builder, fun _ ↦ ptrTy, []⟩ []
    (bcx.toFunctionBuilder, vs)
  extFuncs ptrTy builder :=
    (extFuncs_lower ptrTy arg ⟨builder, fun _ ↦ ptrTy, []⟩ []).symm ▸ List.prefix_rfl

/-- The instructions emitted do not depend on what is known of types and blocks. -/
theorem jitArg_lower (ptrTy : Ty) (arg : RustArg C) (bcx : TypedBuilder) :
    arg.jitArg.lower ptrTy bcx.toFunctionBuilder =
      ((arg.lower ptrTy bcx []).1.toFunctionBuilder, (arg.lower ptrTy bcx []).2) := by
  cases arg with
  | scalar s x => cases s <;> rfl
  | _ => rfl

theorem lowerArgs_jitArg (ptrTy : Ty) (args : List (RustArg C)) (bcx : TypedBuilder) :
    lowerArgs ptrTy (args.map jitArg) bcx.toFunctionBuilder =
      ((lowerAll ptrTy args bcx []).1.toFunctionBuilder, (lowerAll ptrTy args bcx []).2) := by
  induction args generalizing bcx with
  | nil => rfl
  | cons arg args ih =>
      simp only [List.map_cons, lowerArgs, lowerAll, jitArg_lower, ih]
      rw [lowerAll_eq_append ptrTy args _ (arg.lower ptrTy bcx []).2]

end RustArg

/-- The helper emits its call whatever is known of types and blocks. -/
theorem emitCall_jitArg {C : Chrono} (bcx : TypedBuilder) (module : JITModule) (id : FuncId)
    (args : List (RustArg C)) :
    emitCall module id (args.map RustArg.jitArg) bcx.toFunctionBuilder =
      ((helperCall bcx module id args).1.toFunctionBuilder, (helperCall bcx module id args).2) := by
  have hlower :=
    RustArg.lowerArgs_jitArg module.pointerType args (bcx.declareFuncInFunc module id).1
  have hbuilder : (bcx.declareFuncInFunc module id).1.toFunctionBuilder =
      (module.declareFuncInFunc id bcx.toFunctionBuilder).1 := rfl
  rw [hbuilder] at hlower
  simp only [emitCall, hlower]
  rfl

/-! ## What an argument stands for -/

/-- One value of a call: one the caller has passed, or a constant the callee is to
receive. -/
inductive Lane where
  | value (v : Value)
  | const (x : SimValue)

/-- The value of a primitive type as the callee receives it: its bits, at the type of its
lane. -/
def Scalar.simValue : (s : Scalar) → s.Repr → SimValue
  | i8, (x : BitVec 8) | u8, (x : BitVec 8) => .I8 x
  | i16, (x : BitVec 16) | u16, (x : BitVec 16) => .I16 x
  | i32, (x : BitVec 32) | u32, (x : BitVec 32) => .I32 x
  | i64, (x : BitVec 64) | u64, (x : BitVec 64) => .I64 x
  | usize, (x : BitVec 64) | isize, (x : BitVec 64) => .I64 x
  | bool, (b : Bool) => .I8 (if b then 1 else 0)
  | f32, (x : BitVec 32) => .F32 x
  | f64, (x : BitVec 64) => .F64 x

/-- The lanes of an argument, on a 64-bit host. -/
def RustArg.lanes {C : Chrono} : RustArg C → List Lane
  | value v => [.value v]
  | array vs => vs.map .value
  | scalar s x => [.const (s.simValue x)]
  | pointer _ _ _ addr => [.const (.I64 addr)]
  | str ptr len | slice ptr len => [.const (.I64 ptr), .const (.I64 len)]
  | jitNaiveDate d => [.const (.I32 (C.numDaysFromCe d))]
  | jitNaiveTime t =>
      [.const (.I32 (C.numSecondsFromMidnight t)), .const (.I32 (C.nanosecond t))]
  | jitNaiveDateTime dt =>
      [.const (.I32 (C.numDaysFromCe (C.date dt))),
        .const (.I32 (C.numSecondsFromMidnight (C.time dt))),
        .const (.I32 (C.nanosecond (C.time dt)))]

/-- The instruction is a constant that the simulator reads as `x`. -/
inductive Denotes : InstructionData → SimValue → Prop
  | iconst {imm : BitVec 64} {x : SimValue} (h : SimValue.ofI64 imm x.ty = some x) :
      Denotes (.unaryImm .iconst imm) x
  | f32const (x : BitVec 32) : Denotes (.unaryIeee32 .f32const x) (.F32 x)
  | f64const (x : BitVec 64) : Denotes (.unaryIeee64 .f64const x) (.F64 x)

/-- `Emits bcx lanes bcx' vs`: from `bcx` to `bcx'` a constant is emitted for each constant
lane, in order, and `vs` are the values of the lanes. -/
inductive Emits : TypedBuilder → List Lane → TypedBuilder → List Value → Prop
  | nil {bcx : TypedBuilder} : Emits bcx [] bcx []
  | value {bcx bcx' : TypedBuilder} {v : Value} {lanes : List Lane} {vs : List Value}
      (h : Emits bcx lanes bcx' vs) : Emits bcx (.value v :: lanes) bcx' (v :: vs)
  | const {bcx bcx' : TypedBuilder} {data : InstructionData} {x : SimValue} {lanes : List Lane}
      {vs : List Value} (hdata : Denotes data x)
      (h : Emits (bcx.insertOne data x.ty).1 lanes bcx' vs) :
      Emits bcx (.const x :: lanes) bcx' ((bcx.insertOne data x.ty).2 :: vs)

namespace Emits

variable {bcx bcx' bcx'' : TypedBuilder} {lanes lanes' : List Lane} {vs vs' : List Value}

theorem append (h : Emits bcx lanes bcx' vs) (h' : Emits bcx' lanes' bcx'' vs') :
    Emits bcx (lanes ++ lanes') bcx'' (vs ++ vs') := by
  induction h with
  | nil => exact h'
  | value h ih => exact .value (ih h')
  | const hdata h ih => exact .const hdata (ih h')

theorem values (bcx : TypedBuilder) (vs : List Value) : Emits bcx (vs.map .value) bcx vs := by
  induction vs with
  | nil => exact .nil
  | cons v vs ih => exact .value ih

theorem one (bcx : TypedBuilder) {data : InstructionData} {x : SimValue} (h : Denotes data x) :
    Emits bcx [.const x] (bcx.insertOne data x.ty).1 [(bcx.insertOne data x.ty).2] :=
  .const h .nil

end Emits

/-! ## The impls do so -/

/-- `Appends bcx lanes out r`: lowering from `bcx` into the buffer `out` has given `r`, the
buffer with the values of the lanes at its end. -/
def Appends (bcx : TypedBuilder) (lanes : List Lane) (out : List Value)
    (r : TypedBuilder × List Value) : Prop :=
  ∃ vs, r.2 = out ++ vs ∧ Emits bcx lanes r.1 vs

namespace Appends

variable {bcx : TypedBuilder} {lanes lanes' : List Lane} {out : List Value}
  {r r' : TypedBuilder × List Value}

theorem append (h : Appends bcx lanes out r) (h' : Appends r.1 lanes' r.2 r') :
    Appends bcx (lanes ++ lanes') out r' := by
  obtain ⟨vs, hout, hemits⟩ := h
  obtain ⟨vs', hout', hemits'⟩ := h'
  exact ⟨vs ++ vs', by rw [hout', hout, List.append_assoc], hemits.append hemits'⟩

end Appends

/-- Masking an immediate keeps its value at the type. -/
theorem ofI64_maskToWidth {imm : BitVec 64} {x : SimValue} (h : SimValue.ofI64 imm x.ty = some x) :
    SimValue.ofI64 (maskToWidth imm x.ty.bits) x.ty = some x := by
  rw [← h]
  cases x with
  | F32 x => cases h
  | F64 x => cases h
  | _ => simp [SimValue.ty, SimValue.ofI64, maskToWidth, Ty.bits]

theorem appends_pushIconst (bcx : TypedBuilder) (out : List Value) {imm : BitVec 64}
    {x : SimValue} (h : SimValue.ofI64 imm x.ty = some x) :
    Appends bcx [.const x] out (bcx.pushIconst out x.ty imm) :=
  ⟨_, rfl, .one bcx (.iconst (ofI64_maskToWidth h))⟩

theorem appends_pushF32const (bcx : TypedBuilder) (out : List Value) (x : BitVec 32) :
    Appends bcx [.const (.F32 x)] out (bcx.pushF32const out x) :=
  ⟨_, rfl, .one bcx (.f32const x)⟩

theorem appends_pushF64const (bcx : TypedBuilder) (out : List Value) (x : BitVec 64) :
    Appends bcx [.const (.F64 x)] out (bcx.pushF64const out x) :=
  ⟨_, rfl, .one bcx (.f64const x)⟩

/-- A primitive type: every value is appended at its lane, with its bits. -/
theorem Scalar.appends_lower (s : Scalar) (x : s.Repr) (bcx : TypedBuilder) (out : List Value) :
    Appends bcx [.const (s.simValue x)] out (s.lower .I64 x bcx out) := by
  cases s with
  | i8 => exact appends_pushIconst bcx out (SimValue.ofI64_asI64 (a := .I8 x) rfl)
  | u8 =>
      change BitVec 8 at x
      exact appends_pushIconst bcx out (x := .I8 x) (by simp [SimValue.ofI64, SimValue.ty])
  | i16 => exact appends_pushIconst bcx out (SimValue.ofI64_asI64 (a := .I16 x) rfl)
  | u16 =>
      change BitVec 16 at x
      exact appends_pushIconst bcx out (x := .I16 x) (by simp [SimValue.ofI64, SimValue.ty])
  | i32 => exact appends_pushIconst bcx out (SimValue.ofI64_asI64 (a := .I32 x) rfl)
  | u32 =>
      change BitVec 32 at x
      exact appends_pushIconst bcx out (x := .I32 x) (by simp [SimValue.ofI64, SimValue.ty])
  | i64 => exact appends_pushIconst bcx out (x := .I64 x) rfl
  | u64 => exact appends_pushIconst bcx out (x := .I64 x) rfl
  | usize => exact appends_pushIconst bcx out (x := .I64 x) rfl
  | isize => exact appends_pushIconst bcx out (x := .I64 x) rfl
  | bool =>
      cases x with
      | true => exact appends_pushIconst bcx out (x := .I8 1) rfl
      | false => exact appends_pushIconst bcx out (x := .I8 0) rfl
  | f32 => exact appends_pushF32const bcx out x
  | f64 => exact appends_pushF64const bcx out x

namespace RustArg

variable {C : Chrono}

/-- A pointer or a length. -/
theorem appends_pushAddr (bcx : TypedBuilder) (out : List Value) (addr : BitVec 64) :
    Appends bcx [.const (.I64 addr)] out (bcx.pushIconst out .I64 addr) :=
  appends_pushIconst bcx out (x := .I64 addr) rfl

theorem appends_lowerNaiveDate (d : C.NaiveDate) (bcx : TypedBuilder) (out : List Value) :
    Appends bcx (jitNaiveDate d).lanes out (lowerNaiveDate .I64 d bcx out) :=
  Scalar.i32.appends_lower (C.numDaysFromCe d) bcx out

theorem appends_lowerNaiveTime (t : C.NaiveTime) (bcx : TypedBuilder) (out : List Value) :
    Appends bcx (jitNaiveTime t).lanes out (lowerNaiveTime .I64 t bcx out) :=
  (Scalar.i32.appends_lower (C.numSecondsFromMidnight t) bcx out).append
    (Scalar.i32.appends_lower (C.nanosecond t) _ _)

/-- Every impl appends the lanes of its argument. -/
theorem appends_lower (arg : RustArg C) (bcx : TypedBuilder) (out : List Value) :
    Appends bcx arg.lanes out (arg.lower .I64 bcx out) := by
  cases arg with
  | value v => exact ⟨[v], rfl, .value .nil⟩
  | array vs => exact ⟨vs, rfl, .values bcx vs⟩
  | scalar s x => exact s.appends_lower x bcx out
  | pointer kind pointee sized addr => exact appends_pushAddr bcx out addr
  | str ptr len => exact (appends_pushAddr bcx out ptr).append (appends_pushAddr _ _ len)
  | slice ptr len => exact (appends_pushAddr bcx out ptr).append (appends_pushAddr _ _ len)
  | jitNaiveDate d => exact appends_lowerNaiveDate d bcx out
  | jitNaiveTime t => exact appends_lowerNaiveTime t bcx out
  | jitNaiveDateTime dt =>
      exact (appends_lowerNaiveDate (C.date dt) bcx out).append
        (appends_lowerNaiveTime (C.time dt) _ _)

/-- A list of arguments appends the lanes of each in turn. -/
theorem appends_lowerAll (args : List (RustArg C)) (bcx : TypedBuilder) (out : List Value) :
    Appends bcx (args.flatMap lanes) out (lowerAll .I64 args bcx out) := by
  induction args generalizing bcx out with
  | nil => exact ⟨[], (List.append_nil out).symm, .nil⟩
  | cons arg args ih => exact (arg.appends_lower bcx out).append (ih _ _)

end RustArg

end LowerIrUtils.Export
