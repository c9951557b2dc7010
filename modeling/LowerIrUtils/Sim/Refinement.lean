import LowerIrUtils.Machine.Lockstep
import LowerIrUtils.Sim.BitOps
import LowerIrUtils.Sim.Soundness

/-!
# The simulator refines the reference semantics

On the verified functions that use only the instructions of the reference semantics, the
simulator and the reference machine run in lockstep: the registers of the one hold the
bits of the environment of the other.  So they return the same values, after the same
number of instructions.
-/

namespace LowerIrUtils.Sim

open Clif

/-- Every instruction has a reference semantics.  Values of other types than the integers
may be passed along, but nothing computes on them. -/
def UsesReference (func : Function) : Prop :=
  ∀ b ∈ func.layout.blocks, ∀ inst ∈ func.layout.blockInsts b,
    (func.data inst).opcode.isReference

/-- The environment that holds the bits of the registers. -/
def bitEnv (registers : Registers) : Reference.BitEnv := registers.map SimValue.toBits

/-! ## Values -/

section

variable {func : Function} {state : RunState} {inst : Inst} {data : InstructionData}

theorem bitEnv_eq_some {registers : Registers} {v : Value} {x : SimValue}
    (h : registers v = some x) : (bitEnv registers) v = some x.toBits :=
  congrArg (Option.map SimValue.toBits) h

theorem lookupAll_bitEnv {registers : Registers} {vs : List Value} {xs : List SimValue}
    (h : registers.lookupAll vs = .ok xs) :
    (bitEnv registers).lookupAll vs = .ok (xs.map SimValue.toBits) := by
  show (registers.map SimValue.toBits).lookupAll vs = _
  rw [Env.lookupAll_map, h]
  rfl

theorem bitEnv_insertAll (vs : List Value) (xs : List SimValue) (registers : Registers) :
    bitEnv (Env.insertAll vs xs registers) =
      Env.insertAll vs (xs.map SimValue.toBits) (bitEnv registers) :=
  Env.map_insertAll SimValue.toBits vs xs registers

/-- The value of an instruction is the one the reference semantics gives it. -/
def Evaluates [RustCore] (func : Function) (state : RunState) (inst : Inst) (data : InstructionData)
    (ty : Ty) : Prop :=
  ∃ v, compute func state inst data = .ok v ∧
    Reference.eval (bitEnv state.registers) ty data = some v.toBits

end

/-! ## Lockstep -/

/-- The configurations of the simulator and of the reference machine agree. -/
inductive Agree : Config → Reference.Config → Prop
  | running {p : Function.Point} {state : RunState} {env : Reference.BitEnv}
      (henv : env = bitEnv state.registers) : Agree ⟨.running p, state⟩ (.running p env)
  | returned {vals : List SimValue} {state : RunState} :
      Agree ⟨.halted (.ended vals none), state⟩ (.returned (vals.map SimValue.toBits))

/-- Both runs return, and the same values. -/
inductive SameReturn : Halt → Option (List Reference.BitVal) → Prop
  | intro (vals : List SimValue) :
      SameReturn (.ended vals none) (some (vals.map SimValue.toBits))

section

variable [RustCore] {func : Function} {state : RunState} {p : Function.Point} {inst : Inst}
  {data : InstructionData}

theorem agree_of_evaluates {ty : Ty}
    (hresults : (func.dfg.instResults inst).map func.dfg.valueType = [ty])
    (hstep : step func state inst data = computeStep func state inst data)
    (hexec : Reference.exec func p (bitEnv state.registers) inst data =
      Reference.assign func p (bitEnv state.registers) inst data)
    (h : Evaluates func state inst data ty) :
    Agree (advance func p inst (step func state inst data).1 (step func state inst data).2)
      (Reference.exec func p (bitEnv state.registers) inst data) := by
  obtain ⟨r, hr, hty⟩ := exists_result hresults
  obtain ⟨v, hv, heval⟩ := h
  rw [hstep, computeStep, hv, hexec, Reference.assign, hr]
  simp only [hty, heval]
  refine .running ?_
  rw [registers_bindResults, bitEnv_insertAll, hr]
  rfl

theorem agree_unary {op : Opcode} {arg : Value} {ty : Ty} {a v : SimValue}
    (hresults : (func.dfg.instResults inst).map func.dfg.valueType = [ty])
    (ha : state.registers arg = some a) (hv : applyUnary op a ty = .ok v)
    (hbits : a.toBits.unary op ty = some v.toBits) :
    Agree (advance func p inst (step func state inst (.unary op arg)).1
        (step func state inst (.unary op arg)).2)
      (Reference.exec func p (bitEnv state.registers) inst (.unary op arg)) := by
  refine agree_of_evaluates hresults rfl rfl ⟨v, ?_, ?_⟩
  · rw [compute_unary_of_result hresults ha]
    exact hv
  · rw [Reference.eval, bitEnv_eq_some ha]
    exact hbits

theorem agree_branchTo {dest : BlockCall} {params : List SimValue}
    (h : state.registers.lookupAll dest.values = .ok params) (line : String) :
    Agree (advance func p inst (branchTo state dest line).1 (branchTo state dest line).2)
      (Reference.enter func (bitEnv state.registers) dest) := by
  rw [branchTo, RunState.getAll_eq_ok_iff.mpr h, Reference.enter, lookupAll_bitEnv h]
  refine .running ?_
  show _ = bitEnv (Env.insertAll _ params (state.log line).registers)
  rw [RunState.registers_log, bitEnv_insertAll]

theorem agree_brif {c : Value} {thenDest elseDest : BlockCall} {x : SimValue}
    (hx : state.registers c = some x) (hint : x.ty.isSimInt)
    (htyped : RegistersTyped func state.registers)
    (hbound : Bound state.registers (InstructionData.brif .brif c thenDest elseDest).operands) :
    Agree (advance func p inst (step func state inst (.brif .brif c thenDest elseDest)).1
        (step func state inst (.brif .brif c thenDest elseDest)).2)
      (Reference.exec func p (bitEnv state.registers) inst (.brif .brif c thenDest elseDest)) := by
  rw [Reference.exec_brif (bitEnv_eq_some hx), SimValue.isTrue_toBits hint]
  show Agree (advance _ _ _ (brifStep state c thenDest elseDest).1 (brifStep _ _ _ _).2) _
  simp only [brifStep, RunState.get_eq_ok hx]
  have hargs : Bound state.registers
      (if decide (x.asI64 ≠ 0) = true then thenDest else elseDest).values := by
    refine hbound.values ?_
    cases decide (x.asI64 ≠ 0) with
    | true => exact List.mem_cons_self
    | false => exact List.mem_cons_of_mem _ List.mem_cons_self
  obtain ⟨params, hparams, -⟩ := htyped.exists_lookupAll hargs
  exact agree_branchTo hparams _

/-- An instruction of the reference semantics keeps the two machines in agreement. -/
theorem agree_step
    (h : InstTyping func data ((func.dfg.instResults inst).map func.dfg.valueType))
    (href : data.opcode.isReference) (htyped : RegistersTyped func state.registers)
    (hbound : Bound state.registers data.operands) :
    Agree (advance func p inst (step func state inst data).1 (step func state inst data).2)
      (Reference.exec func p (bitEnv state.registers) inst data) := by
  have hvalue (v : Value) (hv : v ∈ data.operands) :=
    htyped.exists_value (hbound v hv)
  generalize hresults : (func.dfg.instResults inst).map func.dfg.valueType = tys at h
  cases h with
  | @iconst imm ty hty =>
      obtain ⟨v, hv, -⟩ := SimValue.exists_ofI64 imm hty
      refine agree_of_evaluates hresults rfl rfl ⟨v, ?_, ?_⟩
      · simp only [compute, resultTy_eq hresults, Option.getD_some, hv]
      · rw [Reference.eval, SimValue.toBits_ofI64 hv]
  | @intBinary opcode x y ty hop hx hy hty =>
      obtain ⟨a, ha, hxa⟩ := hvalue x (by simp [InstructionData.operands])
      obtain ⟨b, hb, hyb⟩ := hvalue y (by simp [InstructionData.operands])
      have hab : b.ty = a.ty := by rw [hyb, hxa, hx, hy]
      have hint : a.ty.isSimInt := by rw [hxa, hx]; exact hty
      obtain ⟨v, hv, -⟩ := applyBinary_int hop hab.symm hint
      refine agree_of_evaluates hresults rfl rfl ⟨v, ?_, ?_⟩
      · rw [compute_binary ha hb]
        exact hv
      · rw [Reference.eval, bitEnv_eq_some ha, bitEnv_eq_some hb]
        exact binary_toBits hop href hab hint hv
  | @ineg x ty hx hty =>
      obtain ⟨a, ha, hxa⟩ := hvalue x (by simp [InstructionData.operands])
      obtain ⟨v, hv, -⟩ := applyUnary_ineg (a := a) (by rw [hxa, hx]; exact hty) ty
      exact agree_unary hresults ha hv (unary_ineg_toBits hv)
  | @bnot x ty hx hty =>
      obtain ⟨a, ha, hxa⟩ := hvalue x (by simp [InstructionData.operands])
      obtain ⟨v, hv, -⟩ := applyUnary_bnot (a := a) (by rw [hxa, hx]; exact hty) ty
      exact agree_unary hresults ha hv (unary_bnot_toBits hv)
  | @uextend x ty hx hty hbits =>
      obtain ⟨a, ha, hxa⟩ := hvalue x (by simp [InstructionData.operands])
      obtain ⟨v, hv, -⟩ := applyUnary_uextend (by rw [hxa]; exact hx) hty
      exact agree_unary hresults ha hv (unary_uextend_toBits hty hv)
  | @sextend x ty hx hty hbits =>
      obtain ⟨a, ha, hxa⟩ := hvalue x (by simp [InstructionData.operands])
      obtain ⟨v, hv, -⟩ := applyUnary_sextend a hty
      exact agree_unary hresults ha hv (unary_sextend_toBits (by rw [hxa]; exact hx) hty hv)
  | @ireduce x ty hx hty hbits =>
      obtain ⟨a, ha, hxa⟩ := hvalue x (by simp [InstructionData.operands])
      obtain ⟨v, hv, -⟩ := applyUnary_ireduce a hty
      have hle : ty.bits ≤ a.ty.bits := by rw [hxa]; exact hbits.le
      exact agree_unary hresults ha hv (unary_ireduce_toBits (by rw [hxa]; exact hx) hle hv)
  | @icmp cond x y ty hx hy hty =>
      obtain ⟨a, ha, hxa⟩ := hvalue x (by simp [InstructionData.operands])
      obtain ⟨b, hb, hyb⟩ := hvalue y (by simp [InstructionData.operands])
      refine agree_of_evaluates hresults rfl rfl ⟨ofBool (icmp cond a b), ?_, ?_⟩
      · exact compute_intCompare ha hb
      · rw [Reference.eval, bitEnv_eq_some ha, bitEnv_eq_some hb]
        exact compare_toBits cond (by rw [hyb, hxa, hx, hy]) (by rw [hxa, hx]; exact hty)
  | @select c x y ty hc hx hy hty =>
      obtain ⟨i, hi, hci⟩ := hvalue c (by simp [InstructionData.operands])
      obtain ⟨a, ha, -⟩ := hvalue x (by simp [InstructionData.operands])
      obtain ⟨b, hb, -⟩ := hvalue y (by simp [InstructionData.operands])
      refine agree_of_evaluates hresults rfl rfl ⟨if i.asI64 ≠ 0 then a else b, ?_, ?_⟩
      · exact compute_select hi ha hb
      · rw [Reference.eval, bitEnv_eq_some hi, bitEnv_eq_some ha, bitEnv_eq_some hb]
        have htrue := SimValue.isTrue_toBits (a := i) (by rw [hci]; exact hc)
        simp only [Option.bind_eq_bind, Option.bind_some, htrue, decide_eq_true_eq]
        split <;> rfl
  | @jump dest hdest =>
      obtain ⟨params, hparams, -⟩ := htyped.exists_lookupAll hbound
      exact agree_branchTo hparams _
  | @brif c thenDest elseDest hc hthen helse =>
      obtain ⟨x, hx, hcx⟩ := hvalue c (by simp [InstructionData.operands])
      exact agree_brif hx (by rw [hcx]; exact hc) htyped hbound
  | @return_ args hargs =>
      obtain ⟨vals, hvals, -⟩ := htyped.exists_lookupAll hbound
      have hstep : step func state inst (.multiAry .return_ args) = returnStep state args := rfl
      have hexec : Reference.exec func p (bitEnv state.registers) inst (.multiAry .return_ args) =
          .returned (vals.map SimValue.toBits) := by
        have hvals' : (bitEnv state.registers).lookupAll args = .ok _ := lookupAll_bitEnv hvals
        simp only [Reference.exec, hvals']
      have hgetAll : state.getAll args = .ok vals := RunState.getAll_eq_ok_iff.mpr hvals
      rw [hstep, hexec, returnStep, hgetAll]
      exact .returned
  | @floatBinary opcode x y ty hop =>
      cases (Opcode.isReference_of_isFloatBinary hop).symm.trans href
  | f32const | f64const | fneg | bitcast | fcmp | load | store | call => cases href

/-! ## Runs -/

variable {entry : Block}

/-- The simulator and the reference machine run in lockstep. -/
theorem lockstep (hv : Verified func entry) (href : UsesReference func) :
    Lockstep (machine func) (Reference.machine func)
      (fun config config' ↦ Sound func entry config ∧ Agree config config') SameReturn where
  done := by
    rintro config config' ⟨hsound, ⟨henv⟩ | -⟩
    · obtain ⟨inst, hinst⟩ := hsound.status.inst
      rw [done_eq_none_iff.mpr ⟨_, inst, rfl, hinst⟩]
      exact .none
    · exact .some (.intro _)
  next := by
    rintro config config' ⟨hsound, hagree⟩ hdone -
    refine ⟨sound_next hv hsound, ?_⟩
    cases hagree with
    | @running p state env henv =>
        have hat : SoundAt func entry state.registers p := hsound.status
        obtain ⟨inst, hinst⟩ := hat.inst
        have hnext : (Reference.machine func).next (.running p env) =
            Reference.exec func p env inst (func.data inst) := by
          simp only [Reference.machine, hinst]
        rw [next_of_instAt rfl hinst, hnext, henv]
        exact agree_step (hv.typed_instAt hat.block hinst)
          (href p.block hat.block inst (List.mem_of_getElem? hinst)) hsound.typed
          (hat.bound_operands hv hinst)
    | returned => cases hdone

omit [RustCore] in
theorem agree_start (sim : Simulator) (hv : Verified func entry) (args : List SimValue) :
    Agree (sim.start func args) (Reference.start func (args.map SimValue.toBits)) := by
  rw [Simulator.start, Reference.start, hv.isEntry]
  refine .running ?_
  show _ = bitEnv (Env.insertAll _ args .empty)
  rw [bitEnv_insertAll]
  rfl

/-- **Refinement.**  On a verified function of integer instructions and arguments of the
types of its signature, a run returns values without an error if and only if the reference
semantics returns their bits within as many instructions as the budget allows. -/
theorem run_refines (sim : Simulator) (hv : Verified func entry) (href : UsesReference func)
    (args : List SimValue) (hargs : args.map SimValue.ty = func.signature.params)
    (vals : List Reference.BitVal) :
    (∃ r, sim.run func args = some r ∧ r.error = none ∧ r.returns.map SimValue.toBits = vals) ↔
      ∃ k ≤ sim.maxSteps, Reference.Returns func (args.map SimValue.toBits) k vals := by
  have hlockstep := lockstep hv href
  have hstart := And.intro (sound_start sim hv hargs) (agree_start sim hv args)
  constructor
  · rintro ⟨r, hrun, herror, rfl⟩
    obtain ⟨k, hk, hhalts⟩ := run_returns_iff.mp ⟨r, hrun, herror, rfl⟩
    obtain ⟨q, hq, ⟨_⟩⟩ := hlockstep.haltsAt hstart hhalts
    exact ⟨k, hk, hq⟩
  · rintro ⟨k, hk, hreturns⟩
    obtain ⟨halt, hhalts, hsame⟩ := hlockstep.symm.haltsAt hstart hreturns
    cases hsame with
    | intro vals =>
        obtain ⟨r, hrun, herror, rfl⟩ := run_returns_iff.mpr ⟨k, hk, hhalts⟩
        exact ⟨r, hrun, herror, rfl⟩

end

section

local instance refinementFmt : RustCore := .blank

theorem usesReference_countdown : UsesReference countdown := by
  have hblocks : countdown.layout.blocks = [⟨0⟩, ⟨1⟩, ⟨2⟩] := rfl
  unfold UsesReference
  rw [hblocks]
  decide

/-- The loop counts from 3 to 0 as the reference semantics does. -/
theorem run_refines_countdown :
    (∃ r, (Simulator.ofBudget 9).run countdown [.I8 3] = some r ∧
      r.error = none ∧ r.returns.map SimValue.toBits = [⟨.I8, 0⟩]) ↔
    ∃ k ≤ 9, Reference.Returns countdown [⟨.I8, 3⟩] k [⟨.I8, 0⟩] :=
  run_refines (.ofBudget 9) Countdown.verified usesReference_countdown [.I8 3] rfl
    [⟨.I8, 0⟩]

end

end LowerIrUtils.Sim
