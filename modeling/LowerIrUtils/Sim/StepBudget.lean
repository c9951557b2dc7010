import LowerIrUtils.Sim.Effect
import LowerIrUtils.Sim.Run

/-!
# The step budget of the simulator

A run of the simulator under a budget either comes to its own end within the budget,
and then reports that end whatever the budget is, or it uses the budget up exactly and
halts with `StepLimitExceeded`.  Which of the two happens is decided by the machine
without a budget, so all runs of a function on the same arguments and memory are
prefixes of one another.

A run always terminates, and never with a panic.
-/

namespace LowerIrUtils.Sim

open Clif

variable [RustCore]

/-! ## How a run ends by itself -/

/-- No instruction panics. -/
theorem step_ne_panicked {func : Function} {state state' : RunState} {inst : Inst}
    {data : InstructionData} : step func state inst data ≠ (state', .panicked) := by
  intro h
  have heffect := effect_of_step h
  generalize hr : StepResult.panicked = r at heffect
  cases heffect with
  | call hargs hz =>
      rename_i e
      cases e <;> cases hr
  | _ => cases hr

/-- An instruction raises only errors that its operands allow. -/
theorem faultOf_of_step {func : Function} {state state' : RunState} {inst : Inst}
    {data : InstructionData} {e : SimError}
    (h : step func state inst data = (state', .error e)) : e.FaultOf data.operands := by
  have heffect := effect_of_step h
  generalize hr : StepResult.error e = r at heffect
  cases heffect with
  | fault he =>
      cases hr
      exact he
  | call hargs hz =>
      rename_i e'
      cases e' with
      | none => cases hr
      | some e' =>
          cases hr
          obtain ⟨v, -, -, rfl⟩ := bindZeros_error hz
          trivial
  | _ => cases hr

/-- The errors a run of a function may end with by itself. -/
def Raises (func : Function) : SimError → Prop
  | .undefinedValue v => ∃ inst, v ∈ (func.data inst).operands
  | .stepLimitExceeded _ => False
  | _ => True

omit [RustCore] in
theorem raises_of_faultOf {func : Function} {inst : Inst} {e : SimError}
    (h : e.FaultOf (func.data inst).operands) : Raises func e := by
  cases e with
  | undefinedValue v => exact ⟨inst, h⟩
  | stepLimitExceeded limit => exact h
  | _ => trivial

/-- An end that the run came to by itself: no panic, and no error of the budget. -/
def Halt.IsOwn (func : Function) : Halt → Prop
  | .ended _ error => ∀ e, error = some e → Raises func e
  | .panicked => False

/-- The configuration is running, or has come to an end by itself. -/
def Config.EndsByItself (func : Function) (config : Config) : Prop :=
  ∀ h, config.status = .halted h → h.IsOwn func

omit [RustCore] in
theorem endsByItself_start (sim : Simulator) (func : Function) (args : List SimValue) :
    (sim.start func args).EndsByItself func := by
  intro h hstatus
  unfold Simulator.start at hstatus
  cases hentry : func.layout.entryBlock with
  | none =>
      rw [hentry] at hstatus
      cases hstatus
      rintro e ⟨⟩
      trivial
  | some entry =>
      rw [hentry] at hstatus
      cases hstatus

theorem endsByItself_next {func : Function} {config : Config}
    (hdone : (machine func).done config = none) :
    ((machine func).next config).EndsByItself func := by
  obtain ⟨p, inst, hp, hinst⟩ := done_eq_none_iff.mp hdone
  rw [next_of_instAt hp hinst]
  intro h hstatus
  rcases hstep : step func config.state inst (func.data inst) with ⟨state, r⟩
  rw [hstep] at hstatus
  cases r with
  | continue_ => cases hstatus
  | jump target params => cases hstatus
  | return_ vals =>
      cases hstatus
      rintro e ⟨⟩
  | error err =>
      cases hstatus
      rintro e ⟨⟩
      exact raises_of_faultOf (faultOf_of_step hstep)
  | panicked => exact absurd hstep step_ne_panicked

theorem endsByItself_configAfter {sim : Simulator} {func : Function} {args : List SimValue}
    {n : Nat} (h : (machine func).Running n (sim.start func args)) :
    (sim.configAfter func args n).EndsByItself func :=
  Machine.after_invariant (endsByItself_start sim func args)
    (fun _ hdone _ ↦ endsByItself_next hdone) h

/-- What the unbounded run ends with is returned values or an error of its own. -/
theorem exists_ended_of_haltsAt {sim : Simulator} {func : Function} {args : List SimValue}
    {k : Nat} {h : Halt} (hk : (machine func).HaltsAt (sim.start func args) k h) :
    ∃ returns error, h = .ended returns error ∧ ∀ e, error = some e → Raises func e := by
  have hown : h.IsOwn func := by
    have hconfig := endsByItself_configAfter hk.1
    have hdone : done func (sim.configAfter func args k) = some h := hk.2
    unfold done at hdone
    cases hstatus : (sim.configAfter func args k).status with
    | halted h' =>
        rw [hstatus] at hdone
        cases hdone
        exact hconfig _ hstatus
    | running p =>
        rw [hstatus] at hdone
        dsimp only at hdone
        split at hdone
        · cases hdone
          rintro e ⟨⟩
          trivial
        · cases hdone
  cases h with
  | ended returns error => exact ⟨returns, error, rfl, hown⟩
  | panicked => exact hown.elim

/-! ## What the budget does -/

/-- The simulator with another budget. -/
def Simulator.withBudget (sim : Simulator) (n : Nat) : Simulator := { sim with maxSteps := n }

/-- A simulator without memory. -/
def Simulator.ofBudget (n : Nat) : Simulator := (withMemory .empty).withBudget n

/-- The run was stopped by its budget. -/
def LoopExit.HitLimit (exit : LoopExit) : Prop :=
  ∃ limit, exit.error = some (.stepLimitExceeded limit)

/-- The run was stopped by the budget `n` with the registers and memory that the first
`n` instructions produced. -/
structure StoppedAt (sim : Simulator) (func : Function) (args : List SimValue) (n : Nat)
    (exit : LoopExit) : Prop where
  error : exit.error = some (.stepLimitExceeded n)
  returns : exit.returns = []
  registers : exit.state.registers = (sim.configAfter func args n).state.registers
  memory : exit.state.memory = (sim.configAfter func args n).state.memory
  steps : exit.steps = n

/-- The run came to its own end within the budget `n`. -/
structure EndedIn (sim : Simulator) (func : Function) (args : List SimValue) (n : Nat)
    (exit : LoopExit) : Prop where
  steps : exit.steps ≤ n
  halts : (machine func).HaltsAt (sim.start func args) exit.steps
    (.ended exit.returns exit.error)
  state : exit.state = (sim.configAfter func args exit.steps).state
  raises : ∀ e, exit.error = some e → Raises func e

variable {sim : Simulator} {func : Function} {args : List SimValue}

/-- The exit of a run whose machine halts within the budget. -/
theorem exec_of_haltsAt {n k : Nat} {returns : List SimValue} {error : Option SimError}
    (h : (machine func).HaltsAt (sim.start func args) k (.ended returns error)) (hk : k ≤ n) :
    (sim.withBudget n).exec func args =
      some ⟨(sim.configAfter func args k).state, returns, error, k⟩ := by
  rw [Simulator.exec_eq]
  show loopExit func n ((machine func).run n (sim.start func args)) = _
  rw [Machine.run_of_haltsAt h hk]
  rfl

/-- The exit of a run whose machine is still running at the end of the budget. -/
theorem exec_of_running {n : Nat}
    (h : (machine func).Running (n + 1) (sim.start func args)) :
    ∃ exit, (sim.withBudget n).exec func args = some exit ∧ StoppedAt sim func args n exit := by
  obtain ⟨p, inst, hp, hinst⟩ := done_eq_none_iff.mp (Machine.running_succ'.mp h).2
  refine ⟨⟨(sim.configAfter func args n).state.logHalt (.stepLimitExceeded n) inst, [],
    some (.stepLimitExceeded n), n⟩, ?_, ?_⟩
  · rw [Simulator.exec_eq]
    show loopExit func n ((machine func).run n (sim.start func args)) = _
    rw [Machine.run_of_running h]
    simp only [loopExit, hp, hinst]
    rfl
  · exact ⟨rfl, rfl, RunState.registers_logHalt _ _ _, RunState.memory_logHalt _ _ _, rfl⟩

/-- A run terminates without a panic: it ends by itself within its budget or is stopped by
it. -/
theorem exec_cases (sim : Simulator) (func : Function) (args : List SimValue) (n : Nat) :
    ∃ exit, (sim.withBudget n).exec func args = some exit ∧
      (EndedIn sim func args n exit ∨ StoppedAt sim func args n exit) := by
  rcases Machine.haltsAt_or_running (M := machine func) n (sim.start func args) with
    ⟨k, hk, h, hhalts⟩ | hrun
  · obtain ⟨returns, error, rfl, hown⟩ := exists_ended_of_haltsAt hhalts
    exact ⟨_, exec_of_haltsAt hhalts hk, .inl ⟨hk, hhalts, rfl, hown⟩⟩
  · obtain ⟨exit, hexit, hstop⟩ := exec_of_running hrun
    exact ⟨exit, hexit, .inr hstop⟩

theorem exists_exec (sim : Simulator) (func : Function) (args : List SimValue) :
    ∃ exit, sim.exec func args = some exit := by
  obtain ⟨exit, hexit, -⟩ := exec_cases sim func args sim.maxSteps
  exact ⟨exit, hexit⟩

/-- What there is to know of the exit of a run. -/
theorem exec_spec {n : Nat} {exit : LoopExit}
    (hexit : (sim.withBudget n).exec func args = some exit) :
    EndedIn sim func args n exit ∨ StoppedAt sim func args n exit := by
  obtain ⟨exit', hexit', hspec⟩ := exec_cases sim func args n
  rw [hexit'] at hexit
  cases hexit
  exact hspec

theorem run_of_exec {exit : LoopExit} (hexit : sim.exec func args = some exit) :
    sim.run func args = some exit.toResult := by
  rw [Simulator.run, hexit]
  rfl

/-- The registers and memory a run reports are those of the configuration after as many
instructions as it counts. -/
theorem exec_state {exit : LoopExit} (hexit : sim.exec func args = some exit) :
    exit.steps ≤ sim.maxSteps ∧
      exit.state.registers = (sim.configAfter func args exit.steps).state.registers ∧
      exit.state.memory = (sim.configAfter func args exit.steps).state.memory := by
  rcases exec_spec (n := sim.maxSteps) hexit with hended | hstop
  · rw [hended.state]
    exact ⟨hended.steps, rfl, rfl⟩
  · rw [hstop.registers, hstop.memory, hstop.steps]
    exact ⟨Nat.le_refl _, rfl, rfl⟩

/-- A run returns values without an error exactly if the machine ends so within the budget. -/
theorem run_returns_iff {vals : List SimValue} :
    (∃ r, sim.run func args = some r ∧ r.error = none ∧ r.returns = vals) ↔
      ∃ k ≤ sim.maxSteps,
        (machine func).HaltsAt (sim.start func args) k (.ended vals none) := by
  constructor
  · rintro ⟨r, hrun, herror, rfl⟩
    obtain ⟨exit, hexit⟩ := exists_exec sim func args
    rw [run_of_exec hexit] at hrun
    cases hrun
    change exit.error = none at herror
    rcases exec_spec (n := sim.maxSteps) hexit with hended | hstop
    · have hhalts := hended.halts
      rw [herror] at hhalts
      exact ⟨exit.steps, hended.steps, hhalts⟩
    · rw [hstop.error] at herror
      cases herror
  · rintro ⟨k, hk, hhalts⟩
    exact ⟨_, run_of_exec (exec_of_haltsAt hhalts hk), rfl, rfl⟩

/-- **The step budget is exact and monotone.**  A run that ends by itself after `k`
instructions has `k` in its budget and reports what the machine comes to with the `k`-th, is
reported unchanged under every budget from `k` on, and is cut off after exactly `M` instructions
under a budget `M` below `k`.  If no budget lets it end by itself, every budget is used up
exactly.  Every run terminates. -/
theorem exec_budget (sim : Simulator) (func : Function) (args : List SimValue) :
    (∀ N exit, (sim.withBudget N).exec func args = some exit → ¬ exit.HitLimit →
      EndedIn sim func args N exit ∧
      (∀ M, exit.steps ≤ M → (sim.withBudget M).exec func args = some exit ∧
        (sim.withBudget M).run func args = some exit.toResult) ∧
      (∀ M < exit.steps, ∃ exit', (sim.withBudget M).exec func args = some exit' ∧
        StoppedAt sim func args M exit')) ∧
    ((∀ N exit, (sim.withBudget N).exec func args = some exit → exit.HitLimit) →
      ∀ M, ∃ exit, (sim.withBudget M).exec func args = some exit ∧
        StoppedAt sim func args M exit) ∧
    ∀ M, ∃ exit, (sim.withBudget M).exec func args = some exit := by
  refine ⟨?_, ?_, ?_⟩
  · intro N exit hexit hlimit
    rcases exec_spec hexit with hended | hstop
    · refine ⟨hended, ?_, ?_⟩
      · intro M hM
        have hsame : (sim.withBudget M).exec func args = some exit := by
          rw [exec_of_haltsAt hended.halts hM, ← hended.state]
        exact ⟨hsame, run_of_exec hsame⟩
      · intro M hM
        exact exec_of_running (hended.halts.1.mono hM)
    · exact absurd ⟨N, hstop.error⟩ hlimit
  · intro hall M
    obtain ⟨exit, hexit, hended | hstop⟩ := exec_cases sim func args M
    · obtain ⟨limit, hlimit⟩ := hall M exit hexit
      cases hended.raises _ hlimit
    · exact ⟨exit, hexit, hstop⟩
  · intro M
    exact exists_exec _ func args

end LowerIrUtils.Sim
