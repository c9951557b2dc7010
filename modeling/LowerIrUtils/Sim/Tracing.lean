import LowerIrUtils.Machine.Lockstep
import LowerIrUtils.Sim.StepBudget

/-!
# The trace

Forgetting the trace of a state (`untraced`) commutes with every instruction: what is
traced is read off from the state, and nothing is read back.  So a traced run and an
untraced one go in lockstep and end alike (`run_withTrace`).

The only part of the trace that could fail is the preview of a call's arguments, which
reads memory at an address the program chose.  It stays within the bounds of the memory,
and it keeps the arguments apart and in order (`forall₂_formatCallParts`).
-/

namespace LowerIrUtils.Sim

open Clif

/-! ## Forgetting the trace -/

namespace RunState

/-- The state without its trace. -/
def untraced (state : RunState) : RunState := { state with trace := [], recordTrace := false }

@[simp] theorem memory_untraced (state : RunState) : state.untraced.memory = state.memory := rfl

@[simp] theorem get_untraced (state : RunState) (v : Value) :
    state.untraced.get v = state.get v := rfl

@[simp] theorem getAll_untraced (state : RunState) (vs : List Value) :
    state.untraced.getAll vs = state.getAll vs := rfl

@[simp] theorem log_untraced (state : RunState) (line : String) :
    state.untraced.log line = state.untraced := rfl

@[simp] theorem untraced_log (state : RunState) (line : String) :
    (state.log line).untraced = state.untraced := by
  unfold log
  split <;> rfl

end RunState

/-- The configuration without its trace. -/
def Config.untraced (config : Config) : Config := { config with state := config.state.untraced }

section

variable [RustCore] (func : Function)

theorem untraced_bindResults (inst : Inst) (opcode : Opcode) (produced : List SimValue)
    (state : RunState) :
    (bindResults func inst opcode produced state).untraced =
      bindResults func inst opcode produced state.untraced := by
  obtain ⟨line, hline⟩ : ∃ line, ∀ state, bindResults func inst opcode produced state =
      { state.log line with
        registers := Env.insertAll (func.dfg.instResults inst) produced
          (state.log line).registers } := ⟨_, fun _ ↦ rfl⟩
  rw [hline, hline, RunState.log_untraced]
  simp [RunState.untraced]

theorem compute_untraced (state : RunState) (inst : Inst) (data : InstructionData) :
    compute func state.untraced inst data = compute func state inst data := rfl

/-! ## One instruction -/

/-- The same step, from the state without its trace. -/
def Untraced (r r' : RunState × StepResult) : Prop := r' = (r.1.untraced, r.2)

theorem untraced_computeStep (state : RunState) (inst : Inst) (data : InstructionData) :
    Untraced (computeStep func state inst data) (computeStep func state.untraced inst data) := by
  unfold Untraced computeStep
  rw [compute_untraced]
  cases compute func state inst data with
  | error e => rfl
  | ok v => simp only [untraced_bindResults]

theorem untraced_storeStep (state : RunState) (inst : Inst) (opcode : Opcode) (x p : Value)
    (offset : BitVec 32) :
    Untraced (storeStep func state inst opcode x p offset)
      (storeStep func state.untraced inst opcode x p offset) := by
  unfold Untraced storeStep
  rw [RunState.get_untraced, RunState.get_untraced, RunState.memory_untraced]
  cases state.get x with
  | error e => rfl
  | ok val =>
      cases state.get p with
      | error e => rfl
      | ok base =>
          dsimp only
          rcases storeTo state.memory (effectiveAddr base offset) val with ⟨memory, e | u⟩
          · rfl
          · exact congrArg (·, StepResult.continue_)
              (untraced_bindResults func inst opcode [] { state with memory }).symm

omit [RustCore] in
theorem untraced_branchTo (state : RunState) (dest : BlockCall) (line : String) :
    Untraced (branchTo state dest line) (branchTo state.untraced dest line) := by
  unfold Untraced branchTo
  rw [RunState.getAll_untraced]
  cases state.getAll dest.values with
  | error e => rfl
  | ok params => simp

omit [RustCore] in
theorem untraced_brifStep (state : RunState) (arg : Value) (thenDest elseDest : BlockCall) :
    Untraced (brifStep state arg thenDest elseDest)
      (brifStep state.untraced arg thenDest elseDest) := by
  unfold brifStep
  rw [RunState.get_untraced]
  cases state.get arg with
  | error e => rfl
  | ok c => exact untraced_branchTo state _ _

theorem untraced_returnStep (state : RunState) (args : List Value) :
    Untraced (returnStep state args) (returnStep state.untraced args) := by
  unfold Untraced returnStep
  rw [RunState.getAll_untraced]
  cases state.getAll args with
  | error e => rfl
  | ok vals => simp

omit [RustCore] in
theorem untraced_fillResults (inst : Inst) (state : RunState) :
    Untraced (fillResults func inst state) (fillResults func inst state.untraced) := by
  unfold Untraced
  rw [fillResults_eq, fillResults_eq]
  rfl

theorem untraced_callStep (state : RunState) (inst : Inst) (funcRef : FuncRef)
    (args : List Value) :
    Untraced (callStep func state inst funcRef args)
      (callStep func state.untraced inst funcRef args) := by
  cases hargs : state.getAll args with
  | error e =>
      unfold Untraced callStep
      rw [RunState.getAll_untraced, hargs]
  | ok vals =>
      -- the line of a traced call can always be formatted
      obtain ⟨line, hline⟩ := callStep_of_ok func inst funcRef hargs
      have hargs' : state.untraced.getAll args = .ok vals := hargs
      obtain ⟨line', hline'⟩ := callStep_of_ok func inst funcRef hargs'
      rw [hline, hline', RunState.log_untraced, ← RunState.untraced_log state line]
      exact untraced_fillResults func inst (state.log line)

/-- An instruction does the same without the trace. -/
theorem untraced_step (state : RunState) (inst : Inst) (data : InstructionData) :
    Untraced (step func state inst data) (step func state.untraced inst data) := by
  cases data with
  | store opcode x p offset => exact untraced_storeStep func state inst opcode x p offset
  | jump opcode dest => exact untraced_branchTo state dest _
  | brif opcode arg thenDest elseDest => exact untraced_brifStep state arg thenDest elseDest
  | multiAry opcode args =>
      cases opcode
      case return_ => exact untraced_returnStep state args
      all_goals exact untraced_computeStep func state inst (.multiAry _ args)
  | call opcode args funcRef => exact untraced_callStep func state inst funcRef args
  | other opcode args => exact untraced_computeStep func state inst (.other opcode args)
  | _ => exact untraced_computeStep func state inst _

/-! ## A whole run -/

theorem untraced_advance (p : Function.Point) (inst : Inst) (state : RunState) (r : StepResult) :
    (advance func p inst state r).untraced = advance func p inst state.untraced r := by
  cases r with
  | error err =>
      show Config.mk _ (state.logHalt err inst).untraced = Config.mk _ _
      rw [RunState.logHalt, RunState.untraced_log]
      rfl
  | _ => rfl

/-- A run and the same run without its trace go in lockstep. -/
theorem lockstep_untraced :
    Lockstep (machine func) (machine func) (fun config config' ↦ config' = config.untraced)
      Eq where
  done := by
    rintro config _ rfl
    have hdone : (machine func).done config.untraced = (machine func).done config := rfl
    rw [hdone]
    cases (machine func).done config with
    | none => exact .none
    | some h => exact .some rfl
  next := by
    rintro config _ rfl hdone -
    obtain ⟨p, inst, hp, hinst⟩ := done_eq_none_iff.mp hdone
    have hp' : config.untraced.status = .running p := hp
    have hstep : step func config.untraced.state inst (func.data inst) = _ :=
      untraced_step func config.state inst (func.data inst)
    rw [next_of_instAt hp hinst, next_of_instAt hp' hinst, hstep, untraced_advance]

/-- The simulator with the trace switched on or off. -/
def Simulator.withTrace (sim : Simulator) (trace : Bool) : Simulator := { sim with trace }

omit [RustCore] in
theorem untraced_start (sim : Simulator) (args : List SimValue) :
    ((sim.withTrace true).start func args).untraced = (sim.withTrace false).start func args := by
  unfold Simulator.start
  cases func.layout.entryBlock <;> rfl

/-- The results agree in everything but the trace. -/
structure SimResult.SameButTrace (r r' : SimResult) : Prop where
  returns : r.returns = r'.returns
  registers : r.registers = r'.registers
  memory : r.memory = r'.memory
  error : r.error = r'.error

/-- A traced run and an untraced one end alike. -/
theorem run_withTrace (sim : Simulator) (args : List SimValue) :
    ∃ r r', (sim.withTrace true).run func args = some r ∧
      (sim.withTrace false).run func args = some r' ∧ r.SameButTrace r' := by
  have hstart : (sim.withTrace false).start func args =
      ((sim.withTrace true).start func args).untraced := (untraced_start func sim args).symm
  have hconfig {k : Nat} (hrun : (machine func).Running k ((sim.withTrace true).start func args)) :
      (sim.withTrace false).configAfter func args k =
        ((sim.withTrace true).configAfter func args k).untraced :=
    ((lockstep_untraced func).after hstart hrun).2
  rcases Machine.haltsAt_or_running (M := machine func) sim.maxSteps
    ((sim.withTrace true).start func args) with ⟨k, hk, h, hhalts⟩ | hrun
  · obtain ⟨returns, error, rfl, -⟩ := exists_ended_of_haltsAt hhalts
    obtain ⟨h', hhalts', heq⟩ := (lockstep_untraced func).haltsAt hstart hhalts
    cases heq
    refine ⟨_, _, run_of_exec (exec_of_haltsAt hhalts hk), run_of_exec (exec_of_haltsAt hhalts' hk),
      ?_⟩
    rw [hconfig hhalts.1]
    exact ⟨rfl, rfl, rfl, rfl⟩
  · obtain ⟨exit, hexit, hstop⟩ := exec_of_running hrun
    obtain ⟨exit', hexit', hstop'⟩ := exec_of_running ((lockstep_untraced func).after hstart hrun).1
    have hconfig' := hconfig (hrun.mono (Nat.le_succ _))
    refine ⟨_, _, run_of_exec hexit, run_of_exec hexit', ?_, ?_, ?_, ?_⟩
    · exact hstop.returns.trans hstop'.returns.symm
    · show exit.state.registers = exit'.state.registers
      rw [hstop.registers, hstop'.registers, hconfig']
      rfl
    · show exit.state.memory = exit'.state.memory
      rw [hstop.memory, hstop'.memory, hconfig']
      rfl
    · exact hstop.error.trans hstop'.error.symm

end

/-! ## The arguments of a call -/

section

variable [RustCore]

/-- Every argument is rendered once and in order, and the part of an argument starts with its
display. -/
theorem forall₂_formatCallParts (mem : Memory) {args : List SimValue} {parts : List String}
    (h : formatCallParts mem args = some parts) :
    List.Forall₂ (fun v part ↦ ∃ rest, part = v.display ++ rest) args parts := by
  have hself (v : SimValue) : ∃ rest, v.display = v.display ++ rest :=
    ⟨"", String.append_empty.symm⟩
  induction args using formatCallParts.induct generalizing parts with
  | case1 =>
      cases h
      exact .nil
  | case2 p l rest ihRest ih =>
      obtain ⟨preview, hpreview⟩ := Option.isSome_iff_exists.mp (isSome_strPreview mem p l)
      rw [formatCallParts, hpreview] at h
      obtain ⟨_, hsome, h⟩ := Option.bind_eq_some_iff.mp h
      cases hsome
      cases preview with
      | some s =>
          -- the pair is rendered as a pointer to a text and its length
          obtain ⟨parts', hparts, heq⟩ := Option.bind_eq_some_iff.mp h
          cases heq
          exact .cons ⟨_, String.append_assoc ..⟩ (.cons (hself _) (ihRest hparts))
      | none =>
          obtain ⟨parts', hparts, heq⟩ := Option.bind_eq_some_iff.mp h
          cases heq
          exact .cons (hself _) (ih hparts)
  | case3 v rest hpair ih =>
      rw [formatCallParts] at h
      · obtain ⟨parts', hparts, heq⟩ := Option.bind_eq_some_iff.mp h
        cases heq
        exact .cons (hself v) (ih hparts)
      · exact hpair

/-- **Tracing never changes or crashes a run.**  A run with the trace and the same run without
it both end, with the same returns, registers, memory and error.  The arguments of a call
are formatted whatever they are and whatever the memory holds: each of them is rendered
once and in order, in a part that starts with its display. -/
theorem tracing_neutral (sim : Simulator) (func : Function) (args : List SimValue) :
    (∃ r r', (sim.withTrace true).run func args = some r ∧
      (sim.withTrace false).run func args = some r' ∧ r.SameButTrace r') ∧
    ∀ (vals : List SimValue) (mem : Memory), ∃ parts, formatCallParts mem vals = some parts ∧
      formatCallArgs vals mem = some (", ".intercalate parts) ∧
      List.Forall₂ (fun v part ↦ ∃ rest, part = v.display ++ rest) vals parts := by
  refine ⟨run_withTrace func sim args, ?_⟩
  intro vals mem
  obtain ⟨parts, hparts⟩ := Option.isSome_iff_exists.mp (isSome_formatCallParts mem vals)
  exact ⟨parts, hparts, by rw [formatCallArgs, hparts]; rfl, forall₂_formatCallParts mem hparts⟩

end

end LowerIrUtils.Sim
