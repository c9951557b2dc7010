import LowerIrUtils.Machine.Budget
import LowerIrUtils.Sim.Step

/-!
# A whole run of the simulator

`Simulator::run` of `src/sim.rs`, twice.  `runLoop` follows the two nested loops of
the source and its step counter.  `machine` is the same interpreter with the budget
taken out: a machine whose moves are the instructions executed.  `runLoop_eq` connects
the two, so that what the budget does is a fact about machines
(`LowerIrUtils.Machine`) and every invariant of a run is proved over `configAfter`,
the configuration the unbounded interpreter is in after a number of instructions.

The outcome of a run is an `Option`: `none` is a Rust panic.
-/

namespace LowerIrUtils.Sim

open Clif

/-- `Simulator`. -/
structure Simulator where
  memory : Memory
  trace : Bool
  maxSteps : Nat

/-- `DEFAULT_MAX_STEPS`. -/
def defaultMaxSteps : Nat := 1000000

/-- `Simulator::with_memory`. -/
def Simulator.withMemory (bytes : Memory) : Simulator := ⟨bytes, false, defaultMaxSteps⟩

/-- `SimResult`. -/
structure SimResult where
  returns : List SimValue
  registers : Registers
  memory : Memory
  trace : List String
  error : Option SimError

/-- What `'outer` is left with: the state, the two mutable variables `returns` and
`error`, and the number of instructions executed. -/
structure LoopExit where
  state : RunState
  returns : List SimValue
  error : Option SimError
  steps : Nat

/-- The `SimResult` built at the end of `run`. -/
def LoopExit.toResult (exit : LoopExit) : SimResult where
  returns := exit.returns
  registers := exit.state.registers
  memory := exit.state.memory
  trace := exit.state.trace
  error := exit.error

/-- The error of a function without blocks. -/
def noEntryBlock : SimError := .unsupportedOpcode "(no entry block)"

/-- The error of falling off the end of a block. -/
def noTerminator : SimError := .unsupportedOpcode "(block has no terminator)"

namespace RunState

/-- Trace that the run halts at an instruction. -/
def logHalt [RustCore] (state : RunState) (err : SimError) (inst : Inst) : RunState :=
  let err := err.display
  state.log s!"  ! halt: {err} at {inst.name}"

/-- Bind the parameters of a block. -/
def bindParams (state : RunState) (func : Function) (target : Block) (params : List SimValue) :
    RunState :=
  { state with
    registers := Env.insertAll (func.dfg.blockParams target) params state.registers }

@[simp] theorem memory_logHalt [RustCore] (state : RunState) (err : SimError) (inst : Inst) :
    (state.logHalt err inst).memory = state.memory := memory_log state _

@[simp] theorem registers_logHalt [RustCore] (state : RunState) (err : SimError) (inst : Inst) :
    (state.logHalt err inst).registers = state.registers := registers_log state _

@[simp] theorem memory_bindParams (state : RunState) (func : Function) (target : Block)
    (params : List SimValue) : (state.bindParams func target params).memory = state.memory := rfl

end RunState

namespace Simulator

/-- The `RunState` that `run` starts with. -/
def initState (sim : Simulator) : RunState where
  memory := sim.memory
  registers := .empty
  trace := []
  recordTrace := sim.trace

/-- The state in which the entry block is entered. -/
def entryState (sim : Simulator) (func : Function) (entry : Block) (args : List SimValue) :
    RunState :=
  sim.initState.bindParams func entry args

end Simulator

section

variable [RustCore]

/-- The loop `'outer`, from the instruction at `p` on.  `left` is what `steps` is short
of `limit` by. -/
def runLoop (func : Function) (limit : Nat) :
    (left steps : Nat) → RunState → Function.Point → Option LoopExit
  | left, steps, state, p =>
      match func.instAt p, left with
      | none, _ => some ⟨state, [], some noTerminator, steps⟩
      | some inst, 0 =>
          let err := .stepLimitExceeded limit
          some ⟨state.logHalt err inst, [], some err, steps⟩
      | some inst, left + 1 =>
          match step func state inst (func.data inst) with
          | (state, .continue_) =>
              runLoop func limit left (steps + 1) state ⟨p.block, p.index + 1⟩
          | (state, .jump target params) =>
              runLoop func limit left (steps + 1) (state.bindParams func target params)
                ⟨target, 0⟩
          | (state, .return_ vals) => some ⟨state, vals, none, steps + 1⟩
          | (state, .error err) => some ⟨state.logHalt err inst, [], some err, steps + 1⟩
          | (_, .panicked) => none

/-- `Simulator::run` up to the `SimResult` it builds. -/
def Simulator.exec (sim : Simulator) (func : Function) (args : List SimValue) :
    Option LoopExit :=
  match func.layout.entryBlock with
  | none => some ⟨sim.initState, [], some noEntryBlock, 0⟩
  | some entry =>
      runLoop func sim.maxSteps sim.maxSteps 0 (sim.entryState func entry args) ⟨entry, 0⟩

/-- `Simulator::run`.  The simulator itself is left with an empty memory. -/
def Simulator.run (sim : Simulator) (func : Function) (args : List SimValue) :
    Option SimResult :=
  (sim.exec func args).map LoopExit.toResult

/-! ## The machine under the budget -/

/-- How a run ends by itself. -/
inductive Halt where
  | ended (returns : List SimValue) (error : Option SimError)
  | panicked

/-- Where a run is. -/
inductive Status where
  | running (p : Function.Point)
  | halted (h : Halt)

/-- A configuration of the interpreter. -/
structure Config where
  status : Status
  state : RunState

/-- Where the run is after the instruction at `p` gave the result `r` and left `state`. -/
def advance (func : Function) (p : Function.Point) (inst : Inst) (state : RunState) :
    StepResult → Config
  | .continue_ => ⟨.running ⟨p.block, p.index + 1⟩, state⟩
  | .jump target params => ⟨.running ⟨target, 0⟩, state.bindParams func target params⟩
  | .return_ vals => ⟨.halted (.ended vals none), state⟩
  | .error err => ⟨.halted (.ended [] (some err)), state.logHalt err inst⟩
  | .panicked => ⟨.halted .panicked, state⟩

/-- Execute the next instruction, if there is one. -/
def next (func : Function) (config : Config) : Config :=
  match config.status with
  | .halted _ => config
  | .running p =>
      match func.instAt p with
      | none => config
      | some inst =>
          let (state, r) := step func config.state inst (func.data inst)
          advance func p inst state r

/-- How the run has ended; falling off the end of a block is an end of its own. -/
def done (func : Function) (config : Config) : Option Halt :=
  match config.status with
  | .halted h => some h
  | .running p =>
      match func.instAt p with
      | none => some (.ended [] (some noTerminator))
      | some _ => none

/-- The interpreter without a budget. -/
def machine (func : Function) : Machine Config Halt where
  done := done func
  next := next func

theorem done_eq_none_iff {func : Function} {config : Config} :
    (machine func).done config = none ↔
      ∃ p inst, config.status = .running p ∧ func.instAt p = some inst := by
  show done func config = none ↔ _
  unfold done
  cases hstatus : config.status with
  | halted h => simp
  | running p =>
      cases hinst : func.instAt p with
      | none => simp [hinst]
      | some inst => simp [hinst]

theorem next_of_instAt {func : Function} {config : Config} {p : Function.Point} {inst : Inst}
    (hp : config.status = .running p) (hinst : func.instAt p = some inst) :
    (machine func).next config =
      advance func p inst (step func config.state inst (func.data inst)).1
        (step func config.state inst (func.data inst)).2 := by
  show next func config = _
  simp only [next, hp, hinst]

/-- A configuration that has come to its end stays as it is. -/
theorem next_of_done {func : Function} {config : Config} {h : Halt}
    (hdone : (machine func).done config = some h) : (machine func).next config = config := by
  show next func config = config
  have hdone' : done func config = some h := hdone
  unfold done at hdone'
  unfold next
  cases hstatus : config.status with
  | halted h => rfl
  | running p =>
      rw [hstatus] at hdone'
      cases hinst : func.instAt p with
      | none => simp only [hinst]
      | some inst => simp only [hinst, reduceCtorEq] at hdone'

/-- The configuration a run starts in. -/
def Simulator.start (sim : Simulator) (func : Function) (args : List SimValue) : Config :=
  match func.layout.entryBlock with
  | none => ⟨.halted (.ended [] (some noEntryBlock)), sim.initState⟩
  | some entry => ⟨.running ⟨entry, 0⟩, sim.entryState func entry args⟩

/-- The configuration after the first `n` instructions, the budget left aside.  A run
that has ended stays where it is. -/
def Simulator.configAfter (sim : Simulator) (func : Function) (args : List SimValue) (n : Nat) :
    Config :=
  (machine func).after n (sim.start func args)

theorem Simulator.configAfter_succ (sim : Simulator) (func : Function) (args : List SimValue)
    (n : Nat) :
    sim.configAfter func args (n + 1) = (machine func).next (sim.configAfter func args n) :=
  (machine func).after_succ' n _

/-- The first `n` instructions have all been executed if another one is due. -/
theorem Simulator.running_of_instAt {sim : Simulator} {func : Function} {args : List SimValue}
    {n : Nat} {p : Function.Point} {inst : Inst}
    (hp : (sim.configAfter func args n).status = .running p) (hinst : func.instAt p = some inst) :
    (machine func).Running (n + 1) (sim.start func args) :=
  Machine.running_of_done_eq_none (fun _ _ ↦ next_of_done)
    (done_eq_none_iff.mpr ⟨p, inst, hp, hinst⟩)

/-- The exit of the loop for an outcome of the machine: an unfinished one is one whose
budget ran out. -/
def loopExit (func : Function) (limit : Nat) (o : Machine.Outcome Config Halt) :
    Option LoopExit :=
  match o.result with
  | some (.ended returns error) => some ⟨o.state.state, returns, error, o.steps⟩
  | some .panicked => none
  | none =>
      let err := .stepLimitExceeded limit
      let state := match o.state.status with
        | .running p => match func.instAt p with
          | some inst => o.state.state.logHalt err inst
          | none => o.state.state
        | .halted _ => o.state.state
      some ⟨state, [], some err, o.steps⟩

/-- A machine that has stopped reports so under every budget. -/
theorem runFrom_of_done {func : Function} {config : Config} {h : Halt}
    (hdone : (machine func).done config = some h) (n k : Nat) :
    (machine func).runFrom n k config = ⟨config, k, some h⟩ :=
  Machine.runFrom_of_haltsAt ⟨Machine.running_zero config, hdone⟩ (Nat.zero_le n)

/-- The loops of the source run the machine under the budget. -/
theorem runLoop_eq (func : Function) (limit left steps : Nat) (state : RunState)
    (p : Function.Point) :
    runLoop func limit left steps state p =
      loopExit func limit ((machine func).runFrom left steps ⟨.running p, state⟩) := by
  induction left generalizing steps state p with
  | zero =>
      unfold runLoop
      cases hinst : func.instAt p with
      | none => simp [Machine.runFrom, machine, done, hinst, loopExit]
      | some inst => simp [Machine.runFrom, machine, done, hinst, loopExit]
  | succ left ih =>
      unfold runLoop
      cases hinst : func.instAt p with
      | none =>
          have hdone : (machine func).done ⟨.running p, state⟩ =
              some (.ended [] (some noTerminator)) := by simp [machine, done, hinst]
          rw [runFrom_of_done hdone]
          rfl
      | some inst =>
          have hdone : (machine func).done ⟨.running p, state⟩ = none :=
            done_eq_none_iff.mpr ⟨p, inst, rfl, hinst⟩
          have hnext : (machine func).next ⟨.running p, state⟩ = _ := next_of_instAt rfl hinst
          -- a configuration that has halted is reported as it is
          have hhalt (h : Halt) (state : RunState) :
              (machine func).runFrom left (steps + 1) ⟨.halted h, state⟩ =
                ⟨⟨.halted h, state⟩, steps + 1, some h⟩ := runFrom_of_done rfl left (steps + 1)
          simp only [Machine.runFrom, hdone, hnext]
          rcases step func state inst (func.data inst) with ⟨state', r⟩
          cases r with
          | continue_ => exact ih (steps + 1) state' _
          | jump target params => exact ih (steps + 1) _ _
          | return_ vals => simp only [advance, hhalt, loopExit]
          | error err => simp only [advance, hhalt, loopExit]
          | panicked => simp only [advance, hhalt, loopExit]

/-- A run is the machine run under the budget from its start. -/
theorem Simulator.exec_eq (sim : Simulator) (func : Function) (args : List SimValue) :
    sim.exec func args =
      loopExit func sim.maxSteps ((machine func).run sim.maxSteps (sim.start func args)) := by
  unfold Simulator.exec Simulator.start
  cases func.layout.entryBlock with
  | none =>
      show _ = loopExit func sim.maxSteps ((machine func).runFrom sim.maxSteps 0 _)
      rw [runFrom_of_done rfl]
      rfl
  | some entry => exact runLoop_eq func sim.maxSteps sim.maxSteps 0 _ _

end

end LowerIrUtils.Sim
