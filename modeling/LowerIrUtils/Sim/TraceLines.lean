import LowerIrUtils.Sim.Soundness

/-!
# The lines of the trace

A traced run has one line for every instruction it executes, in their order: an instruction
logs what it does, or the run logs that it halts there.  The one thing that would log twice is
a call with a result of a type no `SimValue` has, which is traced before it fails.
-/

namespace LowerIrUtils.Sim

open Clif

/-- If the instruction is a call, its results have types a `SimValue` can have. -/
def FillsCall (func : Function) (inst : Inst) : Prop :=
  ∀ opcode args funcRef, func.data inst = .call opcode args funcRef →
    ∀ v ∈ func.dfg.instResults inst, (func.dfg.valueType v).isSim

/-- All calls in the blocks of the function do so. -/
def FillsCalls (func : Function) : Prop :=
  ∀ p inst, func.instAt p = some inst → FillsCall func inst

/-- What the run logs where it halts. -/
def haltLine (err : SimError) (inst : Inst) : String :=
  let err := err.display
  s!"  ! halt: {err} at {inst.name}"

/-- `after` is `before` with one more line on the trace, if there is a trace. -/
structure LogsOne (before after : RunState) : Prop where
  recordTrace : after.recordTrace = before.recordTrace
  trace : ∃ line, after.trace = before.trace ++ if before.recordTrace then [line] else []

namespace RunState

variable {state : RunState}

theorem trace_log (state : RunState) (line : String) :
    (state.log line).trace = state.trace ++ if state.recordTrace then [line] else [] := by
  unfold log
  split
  · rfl
  · exact (List.append_nil _).symm

theorem logsOne_log (state : RunState) (line : String) : LogsOne state (state.log line) :=
  ⟨recordTrace_log state line, line, trace_log state line⟩

end RunState

section

variable [RustCore] {func : Function}

theorem trace_logHalt (state : RunState) (err : SimError) (inst : Inst) :
    (state.logHalt err inst).trace =
      state.trace ++ if state.recordTrace then [haltLine err inst] else [] :=
  state.trace_log _

theorem logsOne_bindResults (func : Function) (state : RunState) (inst : Inst) (opcode : Opcode)
    (produced : List SimValue) : LogsOne state (bindResults func inst opcode produced state) := by
  obtain ⟨line, hline⟩ : ∃ line, bindResults func inst opcode produced state =
      { state.log line with
        registers := Env.insertAll (func.dfg.instResults inst) produced
          (state.log line).registers } := ⟨_, rfl⟩
  rw [hline]
  exact ⟨state.recordTrace_log line, line, state.trace_log line⟩

/-! ## One instruction -/

/-- An instruction that fails logs nothing, and any other one line. -/
theorem logs_step {state state' : RunState} {inst : Inst} (hfills : FillsCall func inst)
    {r : StepResult} (h : step func state inst (func.data inst) = (state', r)) :
    (∃ err, r = .error err ∧ state' = state) ∨
      (∀ err, r ≠ .error err) ∧ LogsOne state state' := by
  generalize hdata : func.data inst = data at h
  cases effect_of_step h with
  | fault he => exact .inl ⟨_, rfl, rfl⟩
  | value h => exact .inr ⟨nofun, logsOne_bindResults func _ _ _ _⟩
  | @store opcode x p offset val base hx hp hle =>
      have hone := logsOne_bindResults func
        { state with
          memory := state.memory.write (effectiveAddr base offset).toNat val.toBytes }
        inst opcode []
      exact .inr ⟨nofun, hone.recordTrace, hone.trace⟩
  | branch hdest h => exact .inr ⟨nofun, state.logsOne_log _⟩
  | return_ h => exact .inr ⟨nofun, state.logsOne_log _⟩
  | @call opcode args funcRef vals line h registers e hz =>
      cases e with
      | none => exact .inr ⟨nofun, state.recordTrace_log line, line, state.trace_log line⟩
      | some e =>
          obtain ⟨v, hv, hsim, -⟩ := bindZeros_error hz
          rw [hfills opcode args funcRef hdata v hv] at hsim
          cases hsim

/-- What is logged of the instruction the run is at. -/
structure LogsNext (inst : Inst) (config config' : Config) : Prop extends
    LogsOne config.state config'.state where
  halt : ∀ returns err, config'.status = .halted (.ended returns (some err)) →
    config'.state.trace =
      config.state.trace ++ if config.state.recordTrace then [haltLine err inst] else []

/-- Every move of the machine logs one line, which says so if the run halts. -/
theorem logs_next (hfills : FillsCalls func) {config : Config} {p : Function.Point} {inst : Inst}
    (hp : config.status = .running p) (hinst : func.instAt p = some inst) :
    LogsNext inst config ((machine func).next config) := by
  rw [next_of_instAt hp hinst]
  rcases hstep : step func config.state inst (func.data inst) with ⟨state', r⟩
  rcases logs_step (hfills p inst hinst) hstep with ⟨err, rfl, rfl⟩ | ⟨hne, hone⟩
  · have htrace := trace_logHalt config.state err inst
    refine ⟨⟨RunState.recordTrace_log _ _, _, htrace⟩, ?_⟩
    rintro returns err' ⟨⟩
    exact htrace
  · cases r with
    | error err => exact absurd rfl (hne err)
    | continue_ | return_ vals | panicked => exact ⟨hone, nofun⟩
    | jump target params => exact ⟨⟨hone.recordTrace, hone.trace⟩, nofun⟩

/-! ## Whole runs -/

variable {sim : Simulator} {args : List SimValue}

omit [RustCore] in
theorem trace_start (sim : Simulator) (func : Function) (args : List SimValue) :
    (sim.start func args).state.trace = [] ∧
      (sim.start func args).state.recordTrace = sim.trace := by
  unfold Simulator.start
  cases func.layout.entryBlock <;> exact ⟨rfl, rfl⟩

/-- A move that is due logs one line. -/
theorem logs_configAfter_succ (hfills : FillsCalls func) {n : Nat}
    (hrun : (machine func).Running (n + 1) (sim.start func args)) :
    ∃ p inst, (sim.configAfter func args n).status = .running p ∧ func.instAt p = some inst ∧
      LogsNext inst (sim.configAfter func args n) (sim.configAfter func args (n + 1)) := by
  obtain ⟨p, inst, hp, hinst⟩ := done_eq_none_iff.mp (Machine.running_succ'.mp hrun).2
  refine ⟨p, inst, hp, hinst, ?_⟩
  rw [Simulator.configAfter_succ]
  exact logs_next hfills hp hinst

theorem recordTrace_configAfter (hfills : FillsCalls func) {n : Nat}
    (hrun : (machine func).Running n (sim.start func args)) :
    (sim.configAfter func args n).state.recordTrace = sim.trace := by
  induction n with
  | zero => exact (trace_start sim func args).2
  | succ n ih =>
      obtain ⟨p, inst, -, -, hlogs⟩ := logs_configAfter_succ hfills hrun
      exact hlogs.recordTrace.trans (ih (hrun.mono (Nat.le_succ n)))

/-- After `n` instructions there are `n` lines. -/
theorem length_trace_configAfter (hfills : FillsCalls func) {n : Nat}
    (hrun : (machine func).Running n (sim.start func args)) :
    (sim.configAfter func args n).state.trace.length = if sim.trace then n else 0 := by
  induction n with
  | zero =>
      rw [show (sim.configAfter func args 0).state.trace = [] from (trace_start sim func args).1]
      split <;> rfl
  | succ n ih =>
      have hrun' := hrun.mono (Nat.le_succ n)
      obtain ⟨p, inst, -, -, hlogs⟩ := logs_configAfter_succ hfills hrun
      obtain ⟨line, hline⟩ := hlogs.trace
      rw [hline, recordTrace_configAfter hfills hrun', List.length_append, ih hrun']
      split <;> rfl

/-- The trace only grows: the lines of the first `m` instructions stay. -/
theorem take_trace_configAfter (hfills : FillsCalls func) {m n : Nat} (hmn : m ≤ n)
    (hrun : (machine func).Running n (sim.start func args)) :
    (sim.configAfter func args n).state.trace.take m =
      (sim.configAfter func args m).state.trace := by
  induction n, hmn using Nat.le_induction with
  | base =>
      refine List.take_of_length_le ?_
      rw [length_trace_configAfter hfills hrun]
      split
      · exact Nat.le_refl _
      · exact Nat.zero_le _
  | succ n hmn ih =>
      have hrun' := hrun.mono (Nat.le_succ n)
      obtain ⟨p, inst, -, -, hlogs⟩ := logs_configAfter_succ hfills hrun
      obtain ⟨line, hline⟩ := hlogs.trace
      rw [hline, ← ih hrun', recordTrace_configAfter hfills hrun']
      have hlength := length_trace_configAfter hfills hrun'
      cases htrace : sim.trace with
      | true =>
          rw [htrace] at hlength
          exact List.take_append_of_le_length (hmn.trans hlength.ge)
      | false =>
          exact congrArg (List.take m) (List.append_nil _)

/-- The exit of a run that its budget stops. -/
theorem exec_of_running_eq {n : Nat} (h : (machine func).Running (n + 1) (sim.start func args)) :
    ∃ p inst, (sim.configAfter func args n).status = .running p ∧ func.instAt p = some inst ∧
      (sim.withBudget n).exec func args =
        some ⟨(sim.configAfter func args n).state.logHalt (.stepLimitExceeded n) inst, [],
          some (.stepLimitExceeded n), n⟩ := by
  obtain ⟨p, inst, hp, hinst⟩ := done_eq_none_iff.mp (Machine.running_succ'.mp h).2
  refine ⟨p, inst, hp, hinst, ?_⟩
  rw [Simulator.exec_eq]
  show loopExit func n ((machine func).run n (sim.start func args)) = _
  rw [Machine.run_of_running h]
  simp only [loopExit, hp, hinst]
  rfl

/-- What there is to know of the trace a run leaves. -/
structure TraceSpec (sim : Simulator) (func : Function) (args : List SimValue) (exit : LoopExit) :
    Prop where
  length : exit.state.trace.length = if sim.trace then
    exit.steps + (if exit.error = some (.stepLimitExceeded sim.maxSteps) then 1 else 0) else 0
  /-- The first lines are those of the first instructions. -/
  take : ∀ n ≤ exit.steps,
    exit.state.trace.take n = (sim.configAfter func args n).state.trace
  /-- The last line tells of the error and the instruction the run halts at. -/
  halt : sim.trace = true → ∀ err, exit.error = some err → err ≠ noTerminator →
    err ≠ noEntryBlock → ∃ p inst,
      (sim.configAfter func args (exit.state.trace.length - 1)).status = .running p ∧
        func.instAt p = some inst ∧ exit.state.trace.getLast? = some (haltLine err inst)

/-- The trace of a run that ends by itself. -/
theorem traceSpec_of_endedIn (hfills : FillsCalls func) {exit : LoopExit}
    (h : EndedIn sim func args sim.maxSteps exit) : TraceSpec sim func args exit where
  length := by
    have hne : exit.error ≠ some (.stepLimitExceeded sim.maxSteps) :=
      fun herror ↦ h.raises _ herror
    rw [if_neg hne, Nat.add_zero, h.state]
    exact length_trace_configAfter hfills h.halts.1
  take n hn := by
    rw [h.state]
    exact take_trace_configAfter hfills hn h.halts.1
  halt htrace err herror hterm hentry := by
    obtain ⟨hrun, hdone⟩ := h.halts
    have hlength := length_trace_configAfter hfills hrun
    rw [htrace, if_pos rfl] at hlength
    rw [h.state, hlength]
    rw [herror] at hdone
    generalize exit.returns = returns at hdone
    cases hsteps : exit.steps with
    | zero =>
        -- the run has not begun
        rw [hsteps] at hdone
        change done func (sim.start func args) = _ at hdone
        unfold Simulator.start at hdone
        cases hlayout : func.layout.entryBlock with
        | none =>
            rw [hlayout] at hdone
            cases hdone
            exact absurd rfl hentry
        | some entry =>
            rw [hlayout] at hdone
            simp only [done] at hdone
            split at hdone
            · cases hdone
              exact absurd rfl hterm
            · cases hdone
    | succ k =>
        rw [hsteps] at hrun hdone
        obtain ⟨p, inst, hp, hinst, hlogs⟩ := logs_configAfter_succ hfills hrun
        refine ⟨p, inst, hp, hinst, ?_⟩
        change done func (sim.configAfter func args (k + 1)) = _ at hdone
        unfold done at hdone
        cases hstatus : (sim.configAfter func args (k + 1)).status with
        | halted h' =>
            rw [hstatus] at hdone
            cases hdone
            have hlast := hlogs.halt _ err hstatus
            rw [recordTrace_configAfter hfills (hrun.mono (Nat.le_succ k)), htrace] at hlast
            rw [hlast]
            exact List.getLast?_concat
        | running q =>
            rw [hstatus] at hdone
            dsimp only at hdone
            split at hdone
            · cases hdone
              exact absurd rfl hterm
            · cases hdone

/-- The trace of a run that is stopped. -/
theorem traceSpec_of_running (hfills : FillsCalls func)
    (h : (machine func).Running (sim.maxSteps + 1) (sim.start func args)) :
    ∃ exit, sim.exec func args = some exit ∧ TraceSpec sim func args exit := by
  obtain ⟨p, inst, hp, hinst, hexec⟩ := exec_of_running_eq h
  have hrun := h.mono (Nat.le_succ sim.maxSteps)
  have htrace := trace_logHalt (sim.configAfter func args sim.maxSteps).state
    (.stepLimitExceeded sim.maxSteps) inst
  rw [recordTrace_configAfter hfills hrun] at htrace
  have hlength := length_trace_configAfter hfills hrun
  refine ⟨_, hexec, ?_, ?_, ?_⟩
  · rw [htrace, List.length_append, hlength, if_pos rfl]
    cases sim.trace <;> rfl
  · intro n hn
    rw [htrace, ← take_trace_configAfter hfills hn hrun]
    cases hrecord : sim.trace with
    | true =>
        rw [hrecord] at hlength
        exact List.take_append_of_le_length (hn.trans hlength.ge)
    | false => exact congrArg (List.take n) (List.append_nil _)
  · rintro hrecord err ⟨⟩ - -
    rw [hrecord, if_pos rfl] at hlength
    rw [htrace, hrecord, if_pos rfl, List.length_append, hlength]
    exact ⟨p, inst, hp, hinst, List.getLast?_concat⟩

/-- **One line per executed instruction.**  In a function whose calls return values a
`SimValue` can hold, every run on any arguments and memory and within any budget leaves a
trace of as many lines as instructions it executed, and one more if it was stopped by its
budget; without tracing, there are none.  The first lines are those of the first instructions,
and where the run halts at an instruction, the last line tells which and why. -/
theorem trace_lines (hfills : FillsCalls func) (sim : Simulator) (args : List SimValue) :
    ∃ exit, sim.exec func args = some exit ∧ TraceSpec sim func args exit := by
  rcases Machine.haltsAt_or_running (M := machine func) sim.maxSteps (sim.start func args) with
    ⟨k, hk, h, hhalts⟩ | hrun
  · obtain ⟨returns, error, rfl, hown⟩ := exists_ended_of_haltsAt hhalts
    exact ⟨_, exec_of_haltsAt hhalts hk, traceSpec_of_endedIn hfills ⟨hk, hhalts, rfl, hown⟩⟩
  · exact traceSpec_of_running hfills hrun

end

/-! ## A countdown -/

theorem fillsCalls_countdown : FillsCalls countdown := by
  intro p inst hinst opcode args funcRef hdata
  have hmem := Countdown.mem_insts hinst
  simp only [Countdown.insts, List.mem_cons, List.not_mem_nil, or_false, Prod.mk.injEq] at hmem
  rcases hmem with ⟨-, rfl⟩ | ⟨-, rfl⟩ | ⟨-, rfl⟩ | ⟨-, rfl⟩ | ⟨-, rfl⟩ <;> cases hdata

section

local instance traceFmt : RustCore := .blank

/-- Counting down from 3 is stopped after two instructions, and there are three lines. -/
theorem trace_lines_countdown : ∃ exit,
    ({ Simulator.ofBudget 2 with trace := true } : Simulator).exec countdown [.I8 3] = some exit ∧
      exit.state.trace.length = 3 := by
  obtain ⟨exit, hexec, hspec⟩ :=
    trace_lines fillsCalls_countdown { Simulator.ofBudget 2 with trace := true } [.I8 3]
  refine ⟨exit, hexec, hspec.length.trans ?_⟩
  obtain rfl : _ = exit := Option.some.inj hexec
  rfl

end

end LowerIrUtils.Sim
