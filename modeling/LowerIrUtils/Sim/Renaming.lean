import LowerIrUtils.Machine.Lockstep
import LowerIrUtils.Sim.ControlFlow
import LowerIrUtils.Sim.Soundness

/-!
# Renamed functions

Passes renumber values, move instructions and blocks, and drop blocks that nothing branches to.
None of this shows in a run: if the code of a function that can be reached is the code of
another one under other names (`Renames`), the two run in lockstep, and what the second one
reports is what the first one reports under the new names (`run_renamed`).

The new names of values must be distinct, since a register is written where a value is defined.
Nothing is asked of the other names: a block may stand for several.
-/

namespace LowerIrUtils.Clif

/-! ## Names -/

/-- New names for the parts of a function. -/
structure Renaming where
  value : Value → Value
  inst : Inst → Inst
  block : Block → Block
  func : FuncRef → FuncRef
  injective : value.Injective

namespace Renaming

variable (ρ : Renaming)

/-- A program point under its new name. -/
def point (p : Function.Point) : Function.Point := ⟨ρ.block p.block, p.index⟩

/-- A branch under new names. -/
def dest (dest : BlockCall) : BlockCall :=
  { InstructionData.mapValues.mapDest ρ.value dest with block := ρ.block dest.block }

/-- An instruction under new names. -/
def data : InstructionData → InstructionData
  | .jump opcode dest => .jump opcode (ρ.dest dest)
  | .brif opcode c thenDest elseDest =>
      .brif opcode (ρ.value c) (ρ.dest thenDest) (ρ.dest elseDest)
  | .call opcode args f => .call opcode (args.map ρ.value) (ρ.func f)
  | data => data.mapValues ρ.value

@[simp] theorem values_dest (dest : BlockCall) :
    (ρ.dest dest).values = dest.values.map ρ.value :=
  InstructionData.values_mapDest ρ.value dest

@[simp] theorem opcode_data (data : InstructionData) : (ρ.data data).opcode = data.opcode := by
  cases data <;> rfl

end Renaming

/-- A point that can be reached from the entry. -/
inductive Function.Reachable (func : Function) : Function.Point → Prop
  | entry {b : Block} (h : func.layout.entryBlock = some b) : Reachable func ⟨b, 0⟩
  | edge {p q : Function.Point} (hp : Reachable func p) (h : func.Edge p q) : Reachable func q

/-- The code of `func` that can be reached is code of `func'` under new names. -/
structure Renames (ρ : Renaming) (func func' : Function) : Prop where
  entryBlock : func'.layout.entryBlock = func.layout.entryBlock.map ρ.block
  params : ∀ b, func.Reachable ⟨b, 0⟩ →
    func'.dfg.blockParams (ρ.block b) = (func.dfg.blockParams b).map ρ.value
  instAt : ∀ p, func.Reachable p → func'.instAt (ρ.point p) = (func.instAt p).map ρ.inst
  data : ∀ p inst, func.Reachable p → func.instAt p = some inst →
    func'.data (ρ.inst inst) = ρ.data (func.data inst)
  results : ∀ p inst, func.Reachable p → func.instAt p = some inst →
    func'.dfg.instResults (ρ.inst inst) = (func.dfg.instResults inst).map ρ.value
  types : ∀ p inst, func.Reachable p → func.instAt p = some inst →
    ∀ v ∈ func.dfg.instResults inst, func'.dfg.valueType (ρ.value v) = func.dfg.valueType v

end LowerIrUtils.Clif

namespace LowerIrUtils.Sim

open Clif

/-! ## Results under new names -/

namespace SimError

/-- The value an error names is under its new name. -/
def rename (g : Value → Value) : SimError → SimError
  | .undefinedValue v => .undefinedValue (g v)
  | e => e

theorem rename_of_faultOf {e : SimError} (h : e.FaultOf []) (g : Value → Value) :
    e.rename g = e := by
  cases e with
  | undefinedValue v => cases h
  | _ => rfl

end SimError

/-- Errors that name no value stay as they are. -/
theorem mapError_rename {α : Type} {r : Except SimError α} (h : FaultsOf [] r)
    (g : Value → Value) : r.mapError (SimError.rename g) = r := by
  cases r with
  | error e => exact congrArg Except.error (SimError.rename_of_faultOf (h e rfl) g)
  | ok x => rfl

theorem mapError_bind {ε ε' α β : Type} (f : ε → ε') (r : Except ε α) (g : α → Except ε β) :
    (r >>= g).mapError f = r.mapError f >>= fun x ↦ (g x).mapError f := by
  cases r <;> rfl

/-- A result under new names. -/
def StepResult.rename (ρ : Renaming) : StepResult → StepResult
  | .jump target params => .jump (ρ.block target) params
  | .error e => .error (e.rename ρ.value)
  | r => r

/-- An end under new names. -/
def Halt.rename (ρ : Renaming) : Halt → Halt
  | .ended returns error => .ended returns (error.map (SimError.rename ρ.value))
  | .panicked => .panicked

/-- A status under new names. -/
def Status.rename (ρ : Renaming) : Status → Status
  | .running p => .running (ρ.point p)
  | .halted h => .halted (h.rename ρ)

/-- The state `state'` is `state` under new names, the trace left aside. -/
structure RunState.Renamed (ρ : Renaming) (state state' : RunState) : Prop where
  registers : state.registers.Renamed ρ.value state'.registers
  memory : state'.memory = state.memory

namespace RunState.Renamed

variable {ρ : Renaming} {state state' : RunState}

theorem get (h : Renamed ρ state state') (v : Value) :
    state'.get (ρ.value v) = (state.get v).mapError (SimError.rename ρ.value) := by
  unfold RunState.get
  rw [h.registers.apply]
  cases state.registers v <;> rfl

theorem getAll (h : Renamed ρ state state') (vs : List Value) :
    state'.getAll (vs.map ρ.value) = (state.getAll vs).mapError (SimError.rename ρ.value) := by
  unfold RunState.getAll
  rw [h.registers.lookupAll]
  cases state.registers.lookupAll vs <;> rfl

theorem log (h : Renamed ρ state state') (line line' : String) :
    Renamed ρ (state.log line) (state'.log line') where
  registers := by
    rw [registers_log, registers_log]
    exact h.registers
  memory := by
    rw [memory_log, memory_log]
    exact h.memory

end RunState.Renamed

/-! ## One instruction -/

/-- The outcomes of an instruction and of the renamed one. -/
structure RenamedStep (ρ : Renaming) (r r' : RunState × StepResult) : Prop where
  state : r.1.Renamed ρ r'.1
  result : r'.2 = r.2.rename ρ

section

variable {ρ : Renaming} {func func' : Function} {state state' : RunState} {inst inst' : Inst}

theorem compute_renamed [RustCore] (h : state.Renamed ρ state')
    (hty : resultTy func' inst' 0 = resultTy func inst 0) (data : InstructionData) :
    compute func' state' inst' (ρ.data data) =
      (compute func state inst data).mapError (SimError.rename ρ.value) := by
  cases data with
  | unaryImm opcode imm =>
      cases opcode
      case iconst =>
        simp only [Renaming.data, InstructionData.mapValues, compute, hty]
        cases SimValue.ofI64 imm _ <;> rfl
      all_goals rfl
  | unaryIeee32 opcode imm => cases opcode <;> rfl
  | unaryIeee64 opcode imm => cases opcode <;> rfl
  | binary opcode x y =>
      simp only [Renaming.data, InstructionData.mapValues, compute, h.get, mapError_bind,
        mapError_rename (faultsOf_applyBinary _ _ _)]
  | unary opcode x =>
      simp only [Renaming.data, InstructionData.mapValues, compute, h.get, mapError_bind, hty,
        mapError_rename (faultsOf_applyUnary _ _ _)]
  | loadNoOffset opcode x =>
      cases opcode
      case bitcast =>
        simp only [Renaming.data, InstructionData.mapValues, compute, h.get, mapError_bind, hty,
          mapError_rename (faultsOf_applyUnary _ _ _)]
      all_goals rfl
  | intCompare opcode cond x y =>
      simp only [Renaming.data, InstructionData.mapValues, compute, h.get, mapError_bind]
      rfl
  | floatCompare opcode cond x y =>
      simp only [Renaming.data, InstructionData.mapValues, compute, h.get, mapError_bind]
      rfl
  | ternary opcode c x y =>
      cases opcode
      case select =>
        simp only [Renaming.data, InstructionData.mapValues, compute, h.get, mapError_bind]
        rfl
      all_goals rfl
  | load opcode x offset =>
      simp only [Renaming.data, InstructionData.mapValues, compute, h.get, mapError_bind, hty,
        h.memory, mapError_rename (faultsOf_loadFrom _ _ _)]
  | _ => rfl

/-- The results of the renamed instruction. -/
structure RenamedResults (ρ : Renaming) (func func' : Function) (inst inst' : Inst) : Prop where
  results : func'.dfg.instResults inst' = (func.dfg.instResults inst).map ρ.value
  types : ∀ v ∈ func.dfg.instResults inst,
    func'.dfg.valueType (ρ.value v) = func.dfg.valueType v

namespace RenamedResults

theorem resultTy (h : RenamedResults ρ func func' inst inst') (i : Nat) :
    resultTy func' inst' i = resultTy func inst i := by
  unfold Sim.resultTy
  rw [h.results, List.getElem?_map]
  cases hv : (func.dfg.instResults inst)[i]? with
  | none => rfl
  | some v => exact congrArg some (h.types v (List.mem_of_getElem? hv))

end RenamedResults

/-- Zeros are filled in up to the same result. -/
theorem bindZeros_renamed {dfg dfg' : DataFlowGraph} {registers registers' : Registers}
    (h : registers.Renamed ρ.value registers') (vs : List Value)
    (htypes : ∀ v ∈ vs, dfg'.valueType (ρ.value v) = dfg.valueType v) :
    (bindZeros dfg vs registers).1.Renamed ρ.value
        (bindZeros dfg' (vs.map ρ.value) registers').1 ∧
      (bindZeros dfg' (vs.map ρ.value) registers').2 = (bindZeros dfg vs registers).2 := by
  induction vs generalizing registers registers' with
  | nil => exact ⟨h, rfl⟩
  | cons v vs ih =>
      simp only [List.map_cons, bindZeros, htypes v List.mem_cons_self]
      cases SimValue.zeroOf (dfg.valueType v) with
      | none => exact ⟨h, rfl⟩
      | some zero =>
          exact ih (h.insert ρ.injective v zero) fun u hu ↦ htypes u (List.mem_cons_of_mem v hu)

variable [RustCore]

theorem RunState.Renamed.bindResults (h : state.Renamed ρ state')
    (hresults : RenamedResults ρ func func' inst inst') (opcode : Opcode)
    (produced : List SimValue) :
    (bindResults func inst opcode produced state).Renamed ρ
      (bindResults func' inst' opcode produced state') where
  registers := by
    rw [registers_bindResults, registers_bindResults, hresults.results]
    exact h.registers.insertAll ρ.injective _ _
  memory := by
    rw [memory_bindResults, memory_bindResults]
    exact h.memory

theorem computeStep_renamed (h : state.Renamed ρ state')
    (hresults : RenamedResults ρ func func' inst inst') (data : InstructionData) :
    RenamedStep ρ (computeStep func state inst data)
      (computeStep func' state' inst' (ρ.data data)) := by
  unfold computeStep
  rw [compute_renamed h (hresults.resultTy 0), Renaming.opcode_data]
  cases compute func state inst data with
  | error e => exact ⟨h, rfl⟩
  | ok v => exact ⟨h.bindResults hresults _ _, rfl⟩

theorem storeStep_renamed (h : state.Renamed ρ state')
    (hresults : RenamedResults ρ func func' inst inst') (opcode : Opcode) (x p : Value)
    (offset : BitVec 32) :
    RenamedStep ρ (storeStep func state inst opcode x p offset)
      (storeStep func' state' inst' opcode (ρ.value x) (ρ.value p) offset) := by
  unfold storeStep
  rw [h.get, h.get, h.memory]
  cases state.get x with
  | error e => exact ⟨h, rfl⟩
  | ok val =>
      cases state.get p with
      | error e => exact ⟨h, rfl⟩
      | ok base =>
          dsimp only [Except.mapError]
          cases hstore : storeTo state.memory (effectiveAddr base offset) val with
          | mk memory r =>
              cases r with
              | error e =>
                  refine ⟨⟨h.registers, rfl⟩, ?_⟩
                  obtain ⟨-, rfl⟩ := storeTo_error hstore
                  rfl
              | ok u =>
                  have hwritten : RunState.Renamed ρ { state with memory } { state' with memory } :=
                    ⟨h.registers, rfl⟩
                  exact ⟨hwritten.bindResults hresults opcode [], rfl⟩

omit [RustCore] in
theorem branchTo_renamed (h : state.Renamed ρ state') (dest : BlockCall) (line line' : String) :
    RenamedStep ρ (branchTo state dest line) (branchTo state' (ρ.dest dest) line') := by
  unfold branchTo
  rw [Renaming.values_dest, h.getAll]
  cases state.getAll dest.values with
  | error e => exact ⟨h, rfl⟩
  | ok params => exact ⟨h.log _ _, rfl⟩

omit [RustCore] in
theorem brifStep_renamed (h : state.Renamed ρ state') (c : Value)
    (thenDest elseDest : BlockCall) :
    RenamedStep ρ (brifStep state c thenDest elseDest)
      (brifStep state' (ρ.value c) (ρ.dest thenDest) (ρ.dest elseDest)) := by
  unfold brifStep
  rw [h.get]
  cases state.get c with
  | error e => exact ⟨h, rfl⟩
  | ok x =>
      dsimp only [Except.mapError]
      generalize decide (x.asI64 ≠ 0) = cond
      cases cond with
      | true => exact branchTo_renamed h thenDest _ _
      | false => exact branchTo_renamed h elseDest _ _

theorem returnStep_renamed (h : state.Renamed ρ state') (args : List Value) :
    RenamedStep ρ (returnStep state args) (returnStep state' (args.map ρ.value)) := by
  unfold returnStep
  rw [h.getAll]
  cases state.getAll args with
  | error e => exact ⟨h, rfl⟩
  | ok vals => exact ⟨h.log _ _, rfl⟩

theorem callStep_renamed (h : state.Renamed ρ state')
    (hresults : RenamedResults ρ func func' inst inst') (args : List Value) (f f' : FuncRef) :
    RenamedStep ρ (callStep func state inst f args)
      (callStep func' state' inst' f' (args.map ρ.value)) := by
  cases hargs : state.getAll args with
  | error e =>
      unfold callStep
      rw [h.getAll, hargs]
      exact ⟨h, rfl⟩
  | ok vals =>
      have hargs' : state'.getAll (args.map ρ.value) = .ok vals := by rw [h.getAll, hargs]; rfl
      -- the lines differ, and the results are filled after them
      obtain ⟨line, hline⟩ := callStep_of_ok func inst f hargs
      obtain ⟨line', hline'⟩ := callStep_of_ok func' inst' f' hargs'
      rw [hline, hline', fillResults_eq, fillResults_eq, hresults.results]
      obtain ⟨hregisters, herror⟩ :=
        bindZeros_renamed (h.log line line').registers _ hresults.types
      refine ⟨⟨hregisters, (h.log line line').memory⟩, ?_⟩
      dsimp only
      rw [herror]
      rcases hz : bindZeros func.dfg (func.dfg.instResults inst) (state.log line).registers
        with ⟨registers, _ | e⟩
      · rfl
      · obtain ⟨v, -, -, rfl⟩ := bindZeros_error hz
        rfl

/-- A renamed instruction does the same. -/
theorem step_renamed (h : state.Renamed ρ state')
    (hresults : RenamedResults ρ func func' inst inst') (data : InstructionData) :
    RenamedStep ρ (step func state inst data) (step func' state' inst' (ρ.data data)) := by
  cases data with
  | store opcode x p offset => exact storeStep_renamed h hresults opcode x p offset
  | jump opcode dest => exact branchTo_renamed h dest _ _
  | brif opcode c thenDest elseDest => exact brifStep_renamed h c thenDest elseDest
  | multiAry opcode args =>
      cases opcode
      case return_ => exact returnStep_renamed h args
      all_goals exact computeStep_renamed h hresults (.multiAry _ args)
  | call opcode args f => exact callStep_renamed h hresults args f (ρ.func f)
  | other opcode args => exact computeStep_renamed h hresults (.other opcode args)
  | _ => exact computeStep_renamed h hresults _

/-! ## Whole runs -/

/-- The configurations are at the same point of the code, which can be reached, in the same
state. -/
structure RenamedConfig (ρ : Renaming) (func : Function) (config config' : Config) : Prop where
  status : config'.status = config.status.rename ρ
  state : config.state.Renamed ρ config'.state
  reachable : ∀ p, config.status = .running p → func.Reachable p

omit [RustCore] in
theorem RunState.Renamed.bindParams (h : state.Renamed ρ state') (hcode : Renames ρ func func')
    {b : Block} (hb : func.Reachable ⟨b, 0⟩) (params : List SimValue) :
    (state.bindParams func b params).Renamed ρ (state'.bindParams func' (ρ.block b) params) where
  registers := by
    unfold RunState.bindParams
    rw [hcode.params b hb]
    exact h.registers.insertAll ρ.injective _ _
  memory := h.memory

omit [RustCore] in
theorem renamedConfig_start (hcode : Renames ρ func func') (sim : Simulator)
    (args : List SimValue) :
    RenamedConfig ρ func (sim.start func args) (sim.start func' args) := by
  have hinit : sim.initState.Renamed ρ sim.initState := ⟨.empty, rfl⟩
  unfold Simulator.start
  rw [hcode.entryBlock]
  cases hentry : func.layout.entryBlock with
  | none => exact ⟨rfl, hinit, fun p hp ↦ by cases hp⟩
  | some entry =>
      refine ⟨rfl, hinit.bindParams hcode (.entry hentry) args, ?_⟩
      intro p hp
      cases hp
      exact .entry hentry

/-- Where the renamed run is after an instruction. -/
theorem advance_renamed (hcode : Renames ρ func func') {p : Function.Point}
    {r r' : RunState × StepResult} (hstep : RenamedStep ρ r r')
    (hreachable : ∀ q, (advance func p inst r.1 r.2).status = .running q → func.Reachable q) :
    RenamedConfig ρ func (advance func p inst r.1 r.2)
      (advance func' (ρ.point p) inst' r'.1 r'.2) := by
  rw [hstep.result]
  refine ⟨?_, ?_, hreachable⟩
  · cases r.2 <;> rfl
  · rcases r with ⟨state, _ | ⟨target, params⟩ | vals | e | -⟩
    · exact hstep.state
    · exact hstep.state.bindParams hcode (hreachable _ rfl) params
    · exact hstep.state
    · exact hstep.state.log _ _
    · exact hstep.state

/-- A run and the renamed one go in lockstep. -/
theorem lockstep_renamed (hcode : Renames ρ func func') :
    Lockstep (machine func) (machine func') (RenamedConfig ρ func)
      (fun h h' ↦ h' = h.rename ρ) where
  done {config config'} h := by
    show Option.Rel _ (done func config) (done func' config')
    unfold done
    rw [h.status]
    cases hstatus : config.status with
    | halted halt => exact .some rfl
    | running p =>
        dsimp only [Status.rename]
        rw [hcode.instAt p (h.reachable p hstatus)]
        cases func.instAt p with
        | none => exact .some rfl
        | some inst => exact .none
  next {config config'} h hdone _ := by
    obtain ⟨p, inst, hp, hinst⟩ := done_eq_none_iff.mp hdone
    have hreachable := h.reachable p hp
    have hp' : config'.status = .running (ρ.point p) := by rw [h.status, hp]; rfl
    have hinst' : func'.instAt (ρ.point p) = some (ρ.inst inst) := by
      rw [hcode.instAt p hreachable, hinst]
      rfl
    have hresults : RenamedResults ρ func func' inst (ρ.inst inst) :=
      ⟨hcode.results p inst hreachable hinst, hcode.types p inst hreachable hinst⟩
    have hmoves {q : Function.Point} (hq : ((machine func).next config).status = .running q) :
        func.Reachable q := .edge hreachable (moves_of_next hp hinst hq).edge
    rw [next_of_instAt hp hinst] at hmoves ⊢
    rw [next_of_instAt hp' hinst', hcode.data p inst hreachable hinst]
    exact advance_renamed hcode (step_renamed h.state hresults _) fun q ↦ hmoves

/-- What a run of the renamed function reports. -/
structure SimResult.Renamed (ρ : Renaming) (r r' : SimResult) : Prop where
  returns : r'.returns = r.returns
  registers : r.registers.Renamed ρ.value r'.registers
  memory : r'.memory = r.memory
  error : r'.error = r.error.map (SimError.rename ρ.value)

/-- **A run depends on the code that can be reached, and not on the names in it.**  If what can
be reached of a function is found in another one under new names, those of values distinct,
then both return the same values with the same memory, or fail alike, whatever the budget
is; and the registers of one are those of the other under their new names. -/
theorem run_renamed (hcode : Renames ρ func func') (sim : Simulator) (args : List SimValue) :
    ∃ r r', sim.run func args = some r ∧ sim.run func' args = some r' ∧ r.Renamed ρ r' := by
  have hstart := renamedConfig_start hcode sim args
  have hlockstep := lockstep_renamed hcode
  have hconfig {k : Nat} (hrun : (machine func).Running k (sim.start func args)) :
      RenamedConfig ρ func (sim.configAfter func args k) (sim.configAfter func' args k) :=
    (hlockstep.after hstart hrun).2
  rcases Machine.haltsAt_or_running (M := machine func) sim.maxSteps (sim.start func args)
    with ⟨k, hk, h, hhalts⟩ | hrun
  · obtain ⟨returns, error, rfl, -⟩ := exists_ended_of_haltsAt hhalts
    obtain ⟨h', hhalts', rfl⟩ := hlockstep.haltsAt hstart hhalts
    have hconfig := hconfig hhalts.1
    refine ⟨_, _, run_of_exec (exec_of_haltsAt hhalts hk), run_of_exec (exec_of_haltsAt hhalts' hk),
      ?_, ?_, ?_, rfl⟩
    · show returns = returns
      rfl
    · show (sim.configAfter func args k).state.registers.Renamed ρ.value
        (sim.configAfter func' args k).state.registers
      exact hconfig.state.registers
    · show (sim.configAfter func' args k).state.memory = (sim.configAfter func args k).state.memory
      exact hconfig.state.memory
  · obtain ⟨exit, hexit, hstop⟩ := exec_of_running hrun
    obtain ⟨exit', hexit', hstop'⟩ := exec_of_running (hlockstep.after hstart hrun).1
    have hconfig := hconfig (hrun.mono (Nat.le_succ _))
    refine ⟨_, _, run_of_exec hexit, run_of_exec hexit', ?_, ?_, ?_, ?_⟩
    · exact hstop'.returns.trans hstop.returns.symm
    · show exit.state.registers.Renamed ρ.value exit'.state.registers
      rw [hstop.registers, hstop'.registers]
      exact hconfig.state.registers
    · show exit'.state.memory = exit.state.memory
      rw [hstop.memory, hstop'.memory]
      exact hconfig.state.memory
    · show exit'.error = exit.error.map _
      rw [hstop.error, hstop'.error]
      rfl

end

/-! ## A loop renumbered -/

/-- `countdown` with its blocks in another order, and one that nothing branches to:
```
block0(v1: i8):  v2 = iconst.i8 1;   jump block3(v1)
block1:          v0 = iconst.i8 7;   return v0
block2:          return v4
block3(v3: i8):  v4 = isub v3, v2;   brif v4, block3(v4), block2
``` -/
def renumbered : Function :=
  .ofTables ⟨[.I8], [.I8]⟩
    [(.unaryImm .iconst 7, [⟨0⟩]), (.multiAry .return_ [⟨0⟩], []),
      (.unaryImm .iconst 1, [⟨2⟩]), (.jump .jump ⟨⟨3⟩, [.value ⟨1⟩]⟩, []),
      (.binary .isub ⟨3⟩ ⟨2⟩, [⟨4⟩]), (.brif .brif ⟨4⟩ ⟨⟨3⟩, [.value ⟨4⟩]⟩ ⟨⟨2⟩, []⟩, []),
      (.multiAry .return_ [⟨4⟩], [])]
    [([⟨1⟩], [⟨2⟩, ⟨3⟩]), ([], [⟨0⟩, ⟨1⟩]), ([], [⟨6⟩]), ([⟨3⟩], [⟨4⟩, ⟨5⟩])]
    [.I8, .I8, .I8, .I8, .I8] [] []

namespace Renumbered

/-- What the parts of `countdown` are called in `renumbered`. -/
def names : Renaming where
  value v := ⟨v.index + 1⟩
  inst inst := ⟨inst.index + 2⟩
  block
    | ⟨0⟩ => ⟨0⟩
    | ⟨1⟩ => ⟨3⟩
    | ⟨2⟩ => ⟨2⟩
    | ⟨b + 3⟩ => ⟨b + 4⟩
  func := id
  injective := by
    rintro ⟨v⟩ ⟨u⟩ h
    cases h
    rfl

theorem blockInsts (b : Block) :
    renumbered.layout.blockInsts (names.block b) =
      (countdown.layout.blockInsts b).map names.inst := by
  obtain ⟨b⟩ := b
  match b with
  | 0 | 1 | 2 | _ + 3 => rfl

theorem renames : Renames names countdown renumbered where
  entryBlock := rfl
  params b _ := by
    obtain ⟨b⟩ := b
    match b with
    | 0 | 1 | 2 | _ + 3 => rfl
  instAt p _ := by
    show (renumbered.layout.blockInsts (names.block p.block))[p.index]? = _
    rw [blockInsts, List.getElem?_map]
    rfl
  data p inst _ hinst := by
    have hdata : ∀ x ∈ Countdown.insts,
        renumbered.data (names.inst x.2) = names.data (countdown.data x.2) := by decide
    exact hdata _ (Countdown.mem_insts hinst)
  results p inst _ hinst := by
    have hresults : ∀ x ∈ Countdown.insts, renumbered.dfg.instResults (names.inst x.2) =
        (countdown.dfg.instResults x.2).map names.value := by decide
    exact hresults _ (Countdown.mem_insts hinst)
  types p inst _ hinst := by
    have htypes : ∀ x ∈ Countdown.insts, ∀ v ∈ countdown.dfg.instResults x.2,
        renumbered.dfg.valueType (names.value v) = countdown.dfg.valueType v := by decide
    exact htypes _ (Countdown.mem_insts hinst)

end Renumbered

section

local instance renamingFmt : RustCore := .blank

/-- Counting down from three, by either function. -/
theorem run_renamed_countdown :
    ∃ r r', (Simulator.ofBudget 9).run countdown [.I8 3] = some r ∧
      (Simulator.ofBudget 9).run renumbered [.I8 3] = some r' ∧
      r.Renamed Renumbered.names r' :=
  run_renamed Renumbered.renames (.ofBudget 9) [.I8 3]

end

end LowerIrUtils.Sim
