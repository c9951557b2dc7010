import LowerIrUtils.Sim.StepBudget

/-!
# What a faulting instruction leaves behind

An instruction that fails has changed nothing, with one exception.  The `Call` arm of
`step` fills the results of a call one by one and gives up at the first whose type no
`SimValue` has; the results before it are bound by then.

`PartialCall` says when that happens, in terms of the state before the instruction.
-/

namespace LowerIrUtils.Sim

open Clif

/-! ## Filling results with zeros -/

/-- The results before the first one that cannot be filled. -/
def zeroedResults (dfg : DataFlowGraph) (vs : List Value) : List Value :=
  vs.takeWhile fun v ↦ (dfg.valueType v).isSim

/-- A register is unchanged exactly if it is not among the results that were filled, or
held the zero already. -/
theorem bindZeros_apply (dfg : DataFlowGraph) (vs : List Value) (regs : Registers) (u : Value) :
    (bindZeros dfg vs regs).1 u =
      if u ∈ zeroedResults dfg vs then SimValue.zeroOf (dfg.valueType u) else regs u := by
  induction vs generalizing regs with
  | nil => simp [bindZeros, zeroedResults]
  | cons v vs ih =>
      cases hzero : SimValue.zeroOf (dfg.valueType v) with
      | some zero =>
          have hsim : (dfg.valueType v).isSim := by rw [← SimValue.isSome_zeroOf, hzero]; rfl
          have hcons : zeroedResults dfg (v :: vs) = v :: zeroedResults dfg vs := by
            simp [zeroedResults, hsim]
          rw [bindZeros_of_isSim hzero, ih, hcons]
          by_cases hmem : u ∈ zeroedResults dfg vs
          · rw [if_pos hmem, if_pos (List.mem_cons_of_mem v hmem)]
          · rw [if_neg hmem, Env.insert_apply]
            by_cases huv : u = v
            · rw [if_pos huv, if_pos (by rw [huv]; exact List.mem_cons_self), huv, hzero]
            · rw [if_neg huv, if_neg (by simp [huv, hmem])]
      | none =>
          have hsim : (dfg.valueType v).isSim = false := by
            rw [← SimValue.isSome_zeroOf, hzero]; rfl
          simp [bindZeros, hzero, zeroedResults, hsim]

/-- Filling the results changes no register exactly if each one filled held its zero. -/
theorem bindZeros_eq_self_iff {dfg : DataFlowGraph} {vs : List Value} {regs : Registers} :
    (bindZeros dfg vs regs).1 = regs ↔
      ∀ u ∈ zeroedResults dfg vs, regs u = SimValue.zeroOf (dfg.valueType u) := by
  constructor
  · intro h u hu
    have hu' := bindZeros_apply dfg vs regs u
    rwa [h, if_pos hu] at hu'
  · intro h
    funext u
    rw [bindZeros_apply]
    split
    · rename_i hu
      exact (h u hu).symm
    · rfl

/-! ## The exception -/

/-- The instruction is a call whose arguments are bound, of whose results one has a type
no `SimValue` has, and one before it has such a type and does not hold the zero yet. -/
def PartialCall (func : Function) (registers : Registers) (inst : Inst) :
    InstructionData → Prop
  | .call _ args _ =>
      let results := func.dfg.instResults inst
      (∀ a ∈ args, (registers a).isSome) ∧
        (∃ v ∈ results, (func.dfg.valueType v).isSim = false) ∧
        ∃ u ∈ zeroedResults func.dfg results,
          registers u ≠ SimValue.zeroOf (func.dfg.valueType u)
  | _ => False

section

variable [RustCore] {func : Function} {state state' : RunState} {inst : Inst}
  {data : InstructionData} {e : SimError}

/-- No faulting instruction writes to memory. -/
theorem memory_of_step_error (h : step func state inst data = (state', .error e)) :
    state'.memory = state.memory := by
  have heffect := effect_of_step h
  generalize hr : StepResult.error e = r at heffect
  cases heffect with
  | fault he => rfl
  | call hargs hz => exact RunState.memory_log state _
  | _ => cases hr

/-- A faulting instruction that is no call leaves the registers alone. -/
theorem registers_of_step_error (h : step func state inst data = (state', .error e))
    (hcall : ∀ opcode args funcRef, data ≠ .call opcode args funcRef) :
    state'.registers = state.registers := by
  have heffect := effect_of_step h
  generalize hr : StepResult.error e = r at heffect
  cases heffect with
  | fault he => rfl
  | call hargs hz => exact absurd rfl (hcall _ _ _)
  | _ => cases hr

/-- A faulting call changes the registers exactly if it is a `PartialCall`. -/
theorem registers_of_call_error_iff {opcode : Opcode} {args : List Value} {funcRef : FuncRef}
    (h : step func state inst (.call opcode args funcRef) = (state', .error e)) :
    state'.registers = state.registers ↔
      ¬ PartialCall func state.registers inst (.call opcode args funcRef) := by
  have hstep : callStep func state inst funcRef args = (state', .error e) := h
  cases hargs : state.getAll args with
  | error e' =>
      simp only [callStep, hargs] at hstep
      cases hstep
      refine iff_of_true rfl ?_
      rintro ⟨hbound, -⟩
      obtain ⟨vals, hvals⟩ := RunState.exists_getAll_iff.mpr hbound
      rw [hargs] at hvals
      cases hvals
  | ok vals =>
      obtain ⟨line, hline⟩ := callStep_of_ok func inst funcRef hargs
      rw [hline, fillResults_eq, RunState.registers_log] at hstep
      obtain ⟨rfl, herror⟩ := Prod.mk.inj hstep
      -- the call failed, so one of its results cannot be filled
      have hunsupported : ∃ v ∈ func.dfg.instResults inst,
          (func.dfg.valueType v).isSim = false := by
        rcases hz : bindZeros func.dfg (func.dfg.instResults inst) state.registers
          with ⟨registers, e'⟩
        rw [hz] at herror
        cases e' with
        | none => cases herror
        | some e' =>
            obtain ⟨v, hv, hsim, -⟩ := bindZeros_error hz
            exact ⟨v, hv, hsim⟩
      have hbound : ∀ a ∈ args, (state.registers a).isSome :=
        RunState.exists_getAll_iff.mp ⟨vals, hargs⟩
      rw [bindZeros_eq_self_iff]
      constructor
      · rintro hzero ⟨-, -, u, hu, hne⟩
        exact hne (hzero u hu)
      · intro hpartial u hu
        by_contra hne
        exact hpartial ⟨hbound, hunsupported, u, hu, hne⟩

/-- A faulting instruction changes the registers exactly if it is a `PartialCall`. -/
theorem registers_of_step_error_iff (h : step func state inst data = (state', .error e)) :
    state'.registers = state.registers ↔ ¬ PartialCall func state.registers inst data := by
  cases data with
  | call opcode args funcRef => exact registers_of_call_error_iff h
  | _ =>
      refine iff_of_true (registers_of_step_error h ?_) id
      intro opcode args funcRef hdata
      cases hdata

/-! ## Runs that end in a fault -/

variable {sim : Simulator} {args : List SimValue} {n : Nat} {p : Function.Point}

/-- A run whose next instruction fails, within its budget, ends there. -/
theorem run_of_step_error (hn : n < sim.maxSteps)
    (hp : (sim.configAfter func args n).status = .running p) (hinst : func.instAt p = some inst)
    (hstep : step func (sim.configAfter func args n).state inst (func.data inst) =
      (state', .error e)) :
    sim.run func args =
      some (LoopExit.toResult ⟨state'.logHalt e inst, [], some e, n + 1⟩) := by
  have hsucc : sim.configAfter func args (n + 1) =
      ⟨.halted (.ended [] (some e)), state'.logHalt e inst⟩ := by
    rw [Simulator.configAfter_succ, next_of_instAt hp hinst, hstep]
    rfl
  have hhalts : (machine func).HaltsAt (sim.start func args) (n + 1) (.ended [] (some e)) := by
    refine ⟨Simulator.running_of_instAt hp hinst, ?_⟩
    show done func (sim.configAfter func args (n + 1)) = _
    rw [hsucc]
    rfl
  have hexec : sim.exec func args = some ⟨_, [], some e, n + 1⟩ := exec_of_haltsAt hhalts hn
  rw [Simulator.run, hexec, hsucc]
  rfl

/-- **A fault is atomic unless it is a `PartialCall`.**  Where instruction number `n + 1`
fails within the budget, the run reports the error and returns nothing; and its
registers and memory are those after the first `n` instructions exactly if the
instruction is not a `PartialCall` there. -/
theorem fault_atomic_iff (sim : Simulator) (func : Function) (args : List SimValue) {n : Nat}
    {p : Function.Point} {inst : Inst} {state' : RunState} {e : SimError} (hn : n < sim.maxSteps)
    (hp : (sim.configAfter func args n).status = .running p) (hinst : func.instAt p = some inst)
    (hstep : step func (sim.configAfter func args n).state inst (func.data inst) =
      (state', .error e)) :
    ∃ r, sim.run func args = some r ∧ r.error = some e ∧
      ((r.registers = (sim.configAfter func args n).state.registers ∧
          r.memory = (sim.configAfter func args n).state.memory ∧ r.returns = []) ↔
        ¬ PartialCall func (sim.configAfter func args n).state.registers inst
          (func.data inst)) := by
  refine ⟨_, run_of_step_error hn hp hinst hstep, rfl, ?_⟩
  have hregisters := registers_of_step_error_iff hstep
  have hmemory := memory_of_step_error hstep
  simp only [LoopExit.toResult, RunState.registers_logHalt, RunState.memory_logHalt, hregisters,
    hmemory, and_self, and_true]

end

/-! ## A call that fails half-way -/

section

local instance faultFmt : RustCore := .blank

/-- `v0, v1 = call f()` with `v0: i64` and `v1: i128`. -/
def wideCall : Function :=
  .ofTables ⟨[], []⟩ [(.call .call [] ⟨0⟩, [⟨0⟩, ⟨1⟩])] [([], [⟨0⟩])] [.I64, .I128] []
    [⟨"u0:0", ⟨[], [.I64, .I128]⟩⟩]

/-- `v0 = iconst.i64 0; v1 = load.i64 v0`. -/
def loadPastEnd : Function :=
  .ofTables ⟨[], []⟩
    [(.unaryImm .iconst 0, [⟨0⟩]), (.load .load ⟨0⟩ 0, [⟨1⟩])] [([], [⟨0⟩, ⟨1⟩])] [.I64, .I64] [] []

/-- A load past the end of memory leaves the state of the `iconst` before it. -/
theorem loadPastEnd_atomic :
    ∃ r, (Simulator.ofBudget 2).run loadPastEnd [] = some r ∧ r.error = some (.outOfBounds 0 8 0) ∧
      r.registers = ((Simulator.ofBudget 2).configAfter loadPastEnd [] 1).state.registers ∧
      r.memory = ((Simulator.ofBudget 2).configAfter loadPastEnd [] 1).state.memory ∧
      r.returns = [] := by
  obtain ⟨r, hr, herror, hiff⟩ := fault_atomic_iff (.ofBudget 2) loadPastEnd [] (n := 1)
    (p := ⟨⟨0⟩, 1⟩) (by decide) rfl rfl rfl
  exact ⟨r, hr, herror, hiff.mpr id⟩

/-- The call fails for its second result with its first one bound to zero. -/
theorem wideCall_not_atomic :
    ¬ ∀ (sim : Simulator) (func : Function) (args : List SimValue) (n : Nat)
      (p : Function.Point) (inst : Inst) (state' : RunState) (e : SimError),
      n < sim.maxSteps → (sim.configAfter func args n).status = .running p →
      func.instAt p = some inst →
      step func (sim.configAfter func args n).state inst (func.data inst) =
        (state', .error e) →
      ∃ r, sim.run func args = some r ∧
        r.registers = (sim.configAfter func args n).state.registers ∧
        r.memory = (sim.configAfter func args n).state.memory ∧ r.returns = [] := by
  intro h
  obtain ⟨r, hr, hregisters, -⟩ := h (.ofBudget 2) wideCall [] 0 ⟨⟨0⟩, 0⟩ ⟨0⟩ _ _
    (by decide) rfl rfl rfl
  have hbound : ((Simulator.ofBudget 2).run wideCall []).map (fun r ↦ r.registers ⟨0⟩) =
      some (some (.I64 0)) := rfl
  rw [hr, Option.map_some, hregisters] at hbound
  cases hbound

end

end LowerIrUtils.Sim
