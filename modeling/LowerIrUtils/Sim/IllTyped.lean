import LowerIrUtils.Clif.Verifier
import LowerIrUtils.Sim.Shift

/-!
# Operands of the wrong type

Arguments of `run` are not checked against the signature, so a value of any type can reach
any operand.  `Allowed` gives the types CLIF has for the operands of an instruction, and
`Reported` is what the simulator owes to an instruction whose operands have others: a type
mismatch that changes nothing.

Which of them it reports is scattered over the arms of `step`.  A binary instruction
compares the types of its operands with each other and leaves the rest to the opcode;
negation, complement and `uextend` look at their operand; every coercion by `as_i64`,
`as_u64` and `to_f64` takes whatever comes.  `Caught` collects what is left.
-/

namespace LowerIrUtils.Clif

/-- The opcodes of bitwise logic on two operands, which CLIF has for floats as well. -/
def Opcode.isLogic : Opcode → Bool
  | band | bor | bxor => true
  | _ => false

namespace InstructionData

/-- The opcode is one the simulator supports, and the format is that of the opcode. -/
def IsSupported : InstructionData → Prop
  | unaryImm op _ => op = .iconst
  | unaryIeee32 op _ => op = .f32const
  | unaryIeee64 op _ => op = .f64const
  | binary op _ _ => op.isIntBinary ∨ op.isFloatBinary
  | unary op _ => op ∈ [Opcode.ineg, .fneg, .bnot, .uextend, .sextend, .ireduce]
  | loadNoOffset op _ => op = .bitcast
  | intCompare op _ _ _ => op = .icmp
  | floatCompare op _ _ _ => op = .fcmp
  | ternary op _ _ _ => op = .select
  | load op _ _ => op = .load
  | store op _ _ _ => op = .store
  | jump op _ => op = .jump
  | brif op _ _ _ => op = .brif
  | multiAry op _ => op = .return_
  | call op _ _ => op = .call
  | other _ _ => False

/-- The operands of the instruction are of types that CLIF has the opcode for, as far as those
are given by their kinds: integers, floats, addresses, and two operands of one type.  A shift
takes an amount of any integer type; elsewhere two operands that are computed on together have
one type.  How wide the operand of `uextend`, `sextend`, `ireduce` or `bitcast` is beside the
result is not looked at. -/
def Allowed (ty : Value → Ty) : InstructionData → Prop
  | binary op x y =>
      if op.isShift then (ty x).isSimInt ∧ (ty y).isSimInt
      else if op.isLogic then ty x = ty y
      else if op.isIntBinary then ty x = ty y ∧ (ty x).isSimInt
      else ty x = ty y ∧ (ty x).isSimFloat
  | unary op x => if op = .fneg then (ty x).isSimFloat else (ty x).isSimInt
  | intCompare _ _ x y => ty x = ty y ∧ (ty x).isSimInt
  | floatCompare _ _ x y => ty x = ty y ∧ (ty x).isSimFloat
  | ternary _ c x y => (ty c).isSimInt ∧ ty x = ty y
  | load _ p _ => (ty p).isAddr
  | store _ _ p _ => (ty p).isAddr
  | brif _ c _ _ => (ty c).isSimInt
  | _ => True

/-- Of one type and not allowed are floats for an opcode of integers, and integers for one
of floats. -/
theorem wrongClass_of_not_allowed {ty : Value → Ty} {op : Opcode} {x y : Value}
    (hop : op.isIntBinary ∨ op.isFloatBinary) (h : ¬ Allowed ty (binary op x y))
    (hxy : ty x = ty y) :
    (op.isIntBinary ∧ (ty x).isSimInt = false) ∨
      (op.isFloatBinary ∧ (ty x).isSimFloat = false) := by
  rcases hop with hint | hfloat
  · refine .inl ⟨hint, eq_false_of_ne_true fun hsim ↦ h ?_⟩
    by_cases hshift : op.isShift
    · rw [Allowed, if_pos hshift, ← hxy]
      exact ⟨hsim, hsim⟩
    · rw [Allowed, if_neg hshift]
      by_cases hlogic : op.isLogic
      · rwa [if_pos hlogic]
      · rw [if_neg hlogic, if_pos hint]
        exact ⟨hxy, hsim⟩
  · refine .inr ⟨hfloat, eq_false_of_ne_true fun hsim ↦ h ?_⟩
    have hother : op.isShift = false ∧ op.isLogic = false ∧ op.isIntBinary = false := by
      cases op <;> first | exact ⟨rfl, rfl, rfl⟩ | cases hfloat
    obtain ⟨hshift, hlogic, hint⟩ := hother
    simp [Allowed, hshift, hlogic, hint, hxy, hxy ▸ hsim]

end InstructionData

end LowerIrUtils.Clif

namespace LowerIrUtils.Sim

open Clif

/-- The operands of the instruction are bound to values of these types. -/
def OperandsHave (ty : Value → Ty) (registers : Registers) (data : InstructionData) : Prop :=
  ∀ v ∈ data.operands, ∃ x, registers v = some x ∧ x.ty = ty v

/-! ## What the arithmetic makes of them -/

theorem SimValue.isSimFloat_ty (a : SimValue) : a.ty.isSimFloat = !a.ty.isSimInt := by
  cases a <;> rfl

/-- Integer arithmetic on two floats of one type is taken for an unsupported opcode. -/
theorem applyBinary_int_of_isSimFloat [Ieee754.NanBits] {op : Opcode} (hop : op.isIntBinary)
    {a b : SimValue} (hty : a.ty = b.ty) (hfloat : a.ty.isSimFloat) :
    applyBinary op a b = .error (.unsupportedOpcode op.name) := by
  cases a <;> cases hfloat <;> cases b <;> cases hty <;> cases op <;> first | rfl | cases hop

/-- Float arithmetic on two integers of one type is taken for an unsupported opcode. -/
theorem applyBinary_float_of_isSimInt [Ieee754.NanBits] {op : Opcode} (hop : op.isFloatBinary)
    {a b : SimValue} (hty : a.ty = b.ty) (hint : a.ty.isSimInt) :
    applyBinary op a b = .error (.unsupportedOpcode op.name) := by
  cases a <;> cases hint <;> cases b <;> cases hty <;> cases op <;> first | rfl | cases hop

/-- Negation, complement and `uextend` refuse a float. -/
theorem exists_applyUnary_of_isSimFloat {op : Opcode}
    (hop : op = .ineg ∨ op = .bnot ∨ op = .uextend) {a : SimValue} (hfloat : a.ty.isSimFloat)
    (rty : Ty) : ∃ what, applyUnary op a rty = .error (.typeMismatch what) := by
  rcases hop with rfl | rfl | rfl
  all_goals cases a <;> cases hfloat <;> exact ⟨_, rfl⟩

/-- `fneg` refuses an integer. -/
theorem exists_applyUnary_fneg {a : SimValue} (hint : a.ty.isSimInt) (rty : Ty) :
    ∃ what, applyUnary .fneg a rty = .error (.typeMismatch what) := by
  cases a <;> cases hint <;> exact ⟨_, rfl⟩

/-- `sextend` and `ireduce` take every operand and look at the type of the result only. -/
theorem exists_applyUnary_iff {op : Opcode} (hop : op = .sextend ∨ op = .ireduce) (a : SimValue)
    (rty : Ty) :
    (∃ what, applyUnary op a rty = .error (.typeMismatch what)) ↔ rty.isSimInt = false := by
  have hsome := SimValue.isSome_ofI64 a.asI64 rty
  cases hrty : rty.isSimInt with
  | true =>
      obtain ⟨v, hv⟩ := Option.isSome_iff_exists.mp (hsome.trans hrty)
      have hok : applyUnary op a rty = .ok v := by
        rcases hop with rfl | rfl
        · exact applyExtend_eq_ok_iff.mpr ⟨a.asI64, rfl, hv⟩
        · exact applyUnary_ireduce_eq_ok_iff.mpr hv
      simp [hok]
  | false =>
      have hnone : SimValue.ofI64 a.asI64 rty = none :=
        Option.not_isSome_iff_eq_none.mp (ne_true_of_eq_false (hsome.trans hrty))
      refine iff_of_true ?_ rfl
      rcases hop with rfl | rfl
      · refine ⟨s!"{Opcode.sextend.name} -> {rty.name}", ?_⟩
        simp only [applyUnary, applyExtend, extendRaw, bind, Except.bind, hnone]
      · refine ⟨s!"ireduce -> {rty.name}", ?_⟩
        simp only [applyUnary, hnone]

/-! ## One instruction -/

section

variable [RustCore] {func : Function} {state : RunState} {inst : Inst} {ty : Value → Ty}

/-- What an instruction with operands of the wrong types is owed: a type mismatch that
changes nothing, and that ends the run of which it is an instruction. -/
structure Reported (func : Function) (state : RunState) (inst : Inst) (data : InstructionData) :
    Prop where
  step : ∃ what, step func state inst data = (state, .error (.typeMismatch what))
  run : ∀ (sim : Simulator) (args : List SimValue) (n : Nat) (p : Function.Point),
    n < sim.maxSteps → sim.configAfter func args n = ⟨.running p, state⟩ →
    func.instAt p = some inst → func.data inst = data →
    ∃ r what, sim.run func args = some r ∧ r.error = some (.typeMismatch what) ∧
      r.returns = [] ∧ r.registers = state.registers ∧ r.memory = state.memory

/-- The step decides. -/
theorem reported_iff_step {data : InstructionData} :
    Reported func state inst data ↔
      ∃ what, step func state inst data = (state, .error (.typeMismatch what)) := by
  constructor
  · intro h
    exact h.step
  · rintro ⟨what, hstep⟩
    refine ⟨⟨what, hstep⟩, ?_⟩
    intro sim args n p hn hconfig hinst hdata
    have hp : (sim.configAfter func args n).status = .running p := by rw [hconfig]
    have hfails : Sim.step func (sim.configAfter func args n).state inst (func.data inst) =
        (state, .error (.typeMismatch what)) := by rw [hconfig, hdata, hstep]
    exact ⟨_, what, run_of_step_error hn hp hinst hfails, rfl, rfl,
      RunState.registers_logHalt _ _ _, RunState.memory_logHalt _ _ _⟩

/-- Where `step` gives one value, what computes it decides. -/
theorem reported_iff_compute {data : InstructionData}
    (hstep : step func state inst data = computeStep func state inst data) :
    Reported func state inst data ↔
      ∃ what, compute func state inst data = .error (.typeMismatch what) := by
  rw [reported_iff_step, hstep, computeStep]
  cases compute func state inst data with
  | error e => simp
  | ok v => simp

variable (func inst) in
/-- The checks that `step` makes, on the instructions whose operands are not all allowed. -/
def Caught (ty : Value → Ty) (state : RunState) : InstructionData → Prop
  | .binary _ x y => ty x ≠ ty y
  | .unary op x =>
      op = .sextend ∨ op = .ireduce →
        ((resultTy func inst 0).getD (ty x)).isSimInt = false
  | .load _ p offset =>
      let rty := (resultTy func inst 0).getD .I64
      rty.isSim = false ∧ ∃ base, state.registers p = some base ∧
        (effectiveAddr base offset).toNat + rty.bytes ≤ state.memory.length
  | _ => False

theorem reported_binary_iff {op : Opcode} {x y : Value}
    (hop : op.isIntBinary ∨ op.isFloatBinary)
    (hhave : OperandsHave ty state.registers (.binary op x y))
    (hill : ¬ InstructionData.Allowed ty (.binary op x y)) :
    Reported func state inst (.binary op x y) ↔ Caught func inst ty state (.binary op x y) := by
  obtain ⟨a, hx, hxty⟩ := hhave x (by simp [InstructionData.operands])
  obtain ⟨b, hy, hyty⟩ := hhave y (by simp [InstructionData.operands])
  rw [reported_iff_compute rfl, compute_binary hx hy]
  show _ ↔ ty x ≠ ty y
  rw [← hxty, ← hyty]
  by_cases hty : a.ty = b.ty
  · -- operands of one type, but not of one the opcode is for
    have hwrong : applyBinary op a b = .error (.unsupportedOpcode op.name) := by
      have hxy : ty x = ty y := by rw [← hxty, ← hyty, hty]
      rcases InstructionData.wrongClass_of_not_allowed hop hill hxy with
        ⟨hint, hsim⟩ | ⟨hfloat, hsim⟩
      · refine applyBinary_int_of_isSimFloat hint hty ?_
        rw [SimValue.isSimFloat_ty, hxty, hsim]
        rfl
      · refine applyBinary_float_of_isSimInt hfloat hty ?_
        rw [← hxty, SimValue.isSimFloat_ty] at hsim
        simpa using hsim
    simp [hwrong, hty]
  · simp [applyBinary_of_ty_ne hty, hty]

theorem reported_unary_iff {op : Opcode} {x : Value}
    (hop : op ∈ [Opcode.ineg, .fneg, .bnot, .uextend, .sextend, .ireduce])
    (hhave : OperandsHave ty state.registers (.unary op x))
    (hill : ¬ InstructionData.Allowed ty (.unary op x)) :
    Reported func state inst (.unary op x) ↔ Caught func inst ty state (.unary op x) := by
  obtain ⟨a, hx, hxty⟩ := hhave x (by simp [InstructionData.operands])
  rw [reported_iff_compute rfl, compute_unary hx]
  show _ ↔ (op = .sextend ∨ op = .ireduce → ((resultTy func inst 0).getD (ty x)).isSimInt = false)
  rw [← hxty]
  by_cases hcoerced : op = .sextend ∨ op = .ireduce
  · rw [exists_applyUnary_iff hcoerced]
    exact ⟨fun h _ ↦ h, fun h ↦ h hcoerced⟩
  · refine iff_of_true ?_ (fun h ↦ absurd h hcoerced)
    by_cases hneg : op = .fneg
    · subst hneg
      refine exists_applyUnary_fneg ?_ _
      rw [InstructionData.Allowed, if_pos rfl, ← hxty, SimValue.isSimFloat_ty] at hill
      simpa using hill
    · refine exists_applyUnary_of_isSimFloat ?_ ?_ _
      · simp only [List.mem_cons, List.not_mem_nil, or_false] at hop
        tauto
      · rw [InstructionData.Allowed, if_neg hneg, ← hxty] at hill
        rw [SimValue.isSimFloat_ty]
        simpa using hill

theorem reported_load_iff {op : Opcode} {p : Value} {offset : BitVec 32}
    (hhave : OperandsHave ty state.registers (.load op p offset)) :
    Reported func state inst (.load op p offset) ↔
      Caught func inst ty state (.load op p offset) := by
  obtain ⟨base, hp, -⟩ := hhave p (by simp [InstructionData.operands])
  rw [reported_iff_compute rfl, compute_load hp, loadFrom_eq_typeMismatch_iff]
  simp only [Caught, hp, Option.some.injEq, exists_eq_left']
  exact and_comm

/-- Compares and `select` compute on any operands. -/
theorem not_reported_of_compute_ok {data : InstructionData} {v : SimValue}
    (hstep : step func state inst data = computeStep func state inst data)
    (h : compute func state inst data = .ok v) : ¬ Reported func state inst data := by
  rw [reported_iff_compute hstep, h]
  simp

theorem not_reported_intCompare {op : Opcode} {cond : IntCC} {x y : Value}
    (hhave : OperandsHave ty state.registers (.intCompare op cond x y)) :
    ¬ Reported func state inst (.intCompare op cond x y) := by
  obtain ⟨a, hx, -⟩ := hhave x (by simp [InstructionData.operands])
  obtain ⟨b, hy, -⟩ := hhave y (by simp [InstructionData.operands])
  exact not_reported_of_compute_ok rfl (compute_intCompare hx hy)

theorem not_reported_floatCompare {op : Opcode} {cond : FloatCC} {x y : Value}
    (hhave : OperandsHave ty state.registers (.floatCompare op cond x y)) :
    ¬ Reported func state inst (.floatCompare op cond x y) := by
  obtain ⟨a, hx, -⟩ := hhave x (by simp [InstructionData.operands])
  obtain ⟨b, hy, -⟩ := hhave y (by simp [InstructionData.operands])
  exact not_reported_of_compute_ok rfl (compute_floatCompare hx hy)

theorem not_reported_select {c x y : Value}
    (hhave : OperandsHave ty state.registers (.ternary .select c x y)) :
    ¬ Reported func state inst (.ternary .select c x y) := by
  obtain ⟨i, hc, -⟩ := hhave c (by simp [InstructionData.operands])
  obtain ⟨a, hx, -⟩ := hhave x (by simp [InstructionData.operands])
  obtain ⟨b, hy, -⟩ := hhave y (by simp [InstructionData.operands])
  exact not_reported_of_compute_ok rfl (compute_select hc hx hy)

/-- A store is carried out or out of bounds. -/
theorem not_reported_store {op : Opcode} {x p : Value} {offset : BitVec 32}
    (hhave : OperandsHave ty state.registers (.store op x p offset)) :
    ¬ Reported func state inst (.store op x p offset) := by
  intro h
  obtain ⟨what, hstep⟩ := h.step
  obtain ⟨val, hx, -⟩ := hhave x (by simp [InstructionData.operands])
  obtain ⟨base, hp, -⟩ := hhave p (by simp [InstructionData.operands])
  obtain ⟨r, hr, hcases⟩ := storeStep_of_bound func inst op offset hx hp
  have hresult : StepResult.error _ = r := (congrArg Prod.snd hstep).symm.trans hr
  subst hresult
  rcases hcases with h | ⟨_, _, _, h⟩ <;> cases h

/-- A branch is taken whatever its condition is. -/
theorem not_reported_brif {op : Opcode} {c : Value} {thenDest elseDest : BlockCall}
    (hhave : OperandsHave ty state.registers (.brif op c thenDest elseDest)) :
    ¬ Reported func state inst (.brif op c thenDest elseDest) := by
  intro h
  obtain ⟨what, hstep⟩ := h.step
  obtain ⟨i, hc, -⟩ := hhave c (by simp [InstructionData.operands])
  have hbound (dest : BlockCall) (hdest : dest = thenDest ∨ dest = elseDest) :
      ∃ params, state.getAll dest.values = .ok params := by
    refine RunState.exists_getAll_iff.mpr fun v hv ↦ ?_
    have hmem : v ∈ (InstructionData.brif op c thenDest elseDest).operands :=
      mem_operands_of_mem_values (by simpa [InstructionData.destinations] using hdest) hv
    obtain ⟨y, hy, -⟩ := hhave v hmem
    rw [hy]
    rfl
  have hbrif : brifStep state c thenDest elseDest = (state, .error (.typeMismatch what)) := hstep
  simp only [brifStep, RunState.get_eq_ok hc, branchTo] at hbrif
  have hchosen := hbound (if decide (i.asI64 ≠ 0) then thenDest else elseDest) (by
    cases decide (i.asI64 ≠ 0) <;> simp)
  obtain ⟨params, hparams⟩ := hchosen
  rw [hparams] at hbrif
  have hresult := congrArg Prod.snd hbrif
  cases hresult

/-- **Ill-typed operands are reported exactly where a check of the code catches them.**  For
a supported instruction whose operands are bound to values of which some have a type CLIF
does not allow there, `step` reports a type mismatch, changing nothing and ending the run,
if and only if the instruction is `Caught`. -/
theorem reported_iff {data : InstructionData} (hsup : data.IsSupported)
    (hhave : OperandsHave ty state.registers data) (hill : ¬ data.Allowed ty) :
    Reported func state inst data ↔ Caught func inst ty state data := by
  cases data with
  | binary op x y => exact reported_binary_iff hsup hhave hill
  | unary op x => exact reported_unary_iff hsup hhave hill
  | load op p offset => exact reported_load_iff hhave
  | intCompare op cond x y => exact iff_of_false (not_reported_intCompare hhave) id
  | floatCompare op cond x y => exact iff_of_false (not_reported_floatCompare hhave) id
  | ternary op c x y =>
      obtain rfl : op = .select := hsup
      exact iff_of_false (not_reported_select hhave) id
  | store op x p offset => exact iff_of_false (not_reported_store hhave) id
  | brif op c thenDest elseDest => exact iff_of_false (not_reported_brif hhave) id
  | _ => exact absurd trivial hill

end

/-! ## Floats where integers belong -/

section

local instance illTypedFmt : RustCore := .blank

/-- `v2 = iadd v0, v1; v3 = fneg v0`. -/
def addsAndNegates : Function :=
  .ofTables ⟨[], []⟩ [(.binary .iadd ⟨0⟩ ⟨1⟩, [⟨2⟩]), (.unary .fneg ⟨0⟩, [⟨3⟩])]
    [([⟨0⟩, ⟨1⟩], [⟨0⟩, ⟨1⟩])] [.F32, .F32, .F32, .F32] [] []

/-- `v0` and `v1` hold the same value. -/
def bothHold (x : SimValue) : RunState :=
  ⟨.empty, (Env.empty.insert ⟨0⟩ x).insert ⟨1⟩ x, [], false⟩

theorem operandsHave_bothHold (x : SimValue) {data : InstructionData}
    (h : ∀ v ∈ data.operands, v = ⟨0⟩ ∨ v = ⟨1⟩) :
    OperandsHave (fun _ ↦ x.ty) (bothHold x).registers data := by
  intro v hv
  rcases h v hv with rfl | rfl
  · exact ⟨x, rfl, rfl⟩
  · exact ⟨x, rfl, rfl⟩

/-- `fneg` of an integer is reported. -/
theorem reported_fneg :
    Reported addsAndNegates (bothHold (.I32 1)) ⟨1⟩ (.unary .fneg ⟨0⟩) :=
  (@reported_iff illTypedFmt addsAndNegates (bothHold (.I32 1)) ⟨1⟩ (fun _ ↦ .I32) _
    (by simp [InstructionData.IsSupported])
    (operandsHave_bothHold (.I32 1) (by simp [InstructionData.operands]))
    (by simp [InstructionData.Allowed, Ty.isSimFloat])).mpr (by simp [Caught])

/-- `iadd` of two `f32` is taken for an unsupported opcode. -/
theorem iadd_not_reported :
    ¬ ∀ (func : Function) (state : RunState) (inst : Inst) (data : InstructionData)
      (ty : Value → Ty), data.IsSupported → OperandsHave ty state.registers data →
      ¬ data.Allowed ty → Reported func state inst data := by
  intro h
  obtain ⟨what, hstep⟩ := (h addsAndNegates (bothHold (.F32 0)) ⟨0⟩ (.binary .iadd ⟨0⟩ ⟨1⟩)
    (fun _ ↦ .F32) (.inl rfl)
    (operandsHave_bothHold (.F32 0) (by simp [InstructionData.operands]))
    (by simp [InstructionData.Allowed, Opcode.isShift, Opcode.isLogic, Opcode.isIntBinary,
      Ty.isSimInt])).step
  have hresult : (step addsAndNegates (bothHold (.F32 0)) ⟨0⟩ (.binary .iadd ⟨0⟩ ⟨1⟩)).2 =
      .error (.unsupportedOpcode "iadd") := rfl
  rw [hstep] at hresult
  cases hresult

end

end LowerIrUtils.Sim
