import LowerIrUtils.Sim.Fault
import LowerIrUtils.Sim.Reads

/-!
# Value aliases in the simulator

The simulator looks an operand up as it stands, without `resolve_aliases`.  An alias is
never bound, so the first executed instruction that reads one halts the run with
`UndefinedValue`; up to there the run is the one of the function with all aliases
resolved.  Both directions are in `alias_transparent_iff`.
-/

namespace LowerIrUtils.Sim

open Clif

/-- No alias is the result of an instruction or the parameter of a block, and every chain
of aliases ends in a value that is none. -/
structure AliasesWellFormed (func : Function) : Prop where
  results : ∀ inst, ∀ v ∈ func.dfg.instResults inst, func.dfg.aliasOf v = none
  params : ∀ b, ∀ v ∈ func.dfg.blockParams b, func.dfg.aliasOf v = none
  resolves : ∀ v, func.dfg.aliasOf (func.dfg.resolveAliases v) = none

/-! ## Reading an alias -/

/-- One of the values is an alias, and those before it are bound. -/
def ReadsAlias (dfg : DataFlowGraph) (registers : Registers) : List Value → Prop
  | [] => False
  | v :: vs =>
      (dfg.aliasOf v).isSome ∨ ((registers v).isSome ∧ ReadsAlias dfg registers vs)

/-- The result is that an alias is undefined. -/
def UndefinedAlias (dfg : DataFlowGraph) {α : Type} (r : Except SimError α) : Prop :=
  ∃ v, (dfg.aliasOf v).isSome ∧ r = .error (.undefinedValue v)

section Read

variable {dfg : DataFlowGraph} {state : RunState} {v : Value} {vs : List Value}

theorem ReadsAlias.head_eq_none (h : ¬ ReadsAlias dfg state.registers (v :: vs)) :
    dfg.aliasOf v = none := by
  cases halias : dfg.aliasOf v with
  | none => rfl
  | some original => exact absurd (.inl (by rw [halias]; rfl)) h

theorem ReadsAlias.tail (h : ¬ ReadsAlias dfg state.registers (v :: vs)) {x : SimValue}
    (hx : state.registers v = some x) : ¬ ReadsAlias dfg state.registers vs :=
  fun htail ↦ h (.inr ⟨by rw [hx]; rfl, htail⟩)

/-- A read of a value that is no alias, and what is done with it, is the same with the
operand resolved. -/
theorem get_bind_congr {α : Type} (h : ¬ ReadsAlias dfg state.registers (v :: vs))
    {f g : SimValue → Except SimError α}
    (hrest : ¬ ReadsAlias dfg state.registers vs → ∀ x, f x = g x) :
    (state.get (dfg.resolveAliases v) >>= f) = state.get v >>= g := by
  rw [DataFlowGraph.resolveAliases_of_aliasOf_eq_none (ReadsAlias.head_eq_none h)]
  cases hx : state.registers v with
  | none =>
      simp only [RunState.get, hx]
      rfl
  | some x =>
      simp only [RunState.get, hx]
      exact hrest (ReadsAlias.tail h hx) x

theorem getAll_congr (vs : List Value) (h : ¬ ReadsAlias dfg state.registers vs) :
    state.getAll (vs.map dfg.resolveAliases) = state.getAll vs := by
  unfold RunState.getAll
  congr 1
  induction vs with
  | nil => rfl
  | cons v vs ih =>
      rw [List.map_cons,
        DataFlowGraph.resolveAliases_of_aliasOf_eq_none (ReadsAlias.head_eq_none h)]
      cases hx : state.registers v with
      | none => rw [Env.lookupAll_cons_of_none hx, Env.lookupAll_cons_of_none hx]
      | some x =>
          rw [Env.lookupAll_cons_of_some hx, Env.lookupAll_cons_of_some hx,
            ih (ReadsAlias.tail h hx)]

/-- No alias is bound. -/
def AliasesUnbound (dfg : DataFlowGraph) (registers : Registers) : Prop :=
  ∀ v, (dfg.aliasOf v).isSome → registers v = none

/-- A read of a list with an alias fails for an alias. -/
theorem getAll_undefinedAlias (vs : List Value) (hunbound : AliasesUnbound dfg state.registers)
    (h : ReadsAlias dfg state.registers vs) : UndefinedAlias dfg (state.getAll vs) := by
  induction vs with
  | nil => exact h.elim
  | cons v vs ih =>
      rcases h with halias | ⟨hbound, htail⟩
      · refine ⟨v, halias, ?_⟩
        rw [RunState.getAll, Env.lookupAll_cons_of_none (hunbound v halias)]
        rfl
      · obtain ⟨x, hx⟩ := Option.isSome_iff_exists.mp hbound
        obtain ⟨u, hu, herror⟩ := ih htail
        refine ⟨u, hu, ?_⟩
        unfold RunState.getAll at herror ⊢
        rw [Env.lookupAll_cons_of_some hx]
        cases hlookup : state.registers.lookupAll vs with
        | error w => rw [hlookup] at herror; exact herror
        | ok xs => rw [hlookup] at herror; cases herror

end Read

/-! ## One instruction -/

theorem compute_mapValues [RustCore] {func : Function} {state : RunState} {inst : Inst}
    {data : InstructionData}
    (h : ¬ ReadsAlias func.dfg state.registers (reads state.registers data)) :
    compute func state inst (data.mapValues func.dfg.resolveAliases) =
      compute func state inst data := by
  cases data with
  | binary opcode x y =>
      exact get_bind_congr h fun h a ↦ get_bind_congr h fun _ b ↦ rfl
  | unary opcode x => exact get_bind_congr h fun _ a ↦ rfl
  | loadNoOffset opcode x =>
      cases opcode
      case bitcast => exact get_bind_congr h fun _ a ↦ rfl
      all_goals rfl
  | intCompare opcode cond x y =>
      exact get_bind_congr h fun h a ↦ get_bind_congr h fun _ b ↦ rfl
  | floatCompare opcode cond x y =>
      exact get_bind_congr h fun h a ↦ get_bind_congr h fun _ b ↦ rfl
  | ternary opcode c x y =>
      cases opcode
      case select =>
        exact get_bind_congr h fun h i ↦ get_bind_congr h fun h a ↦ get_bind_congr h fun _ b ↦ rfl
      all_goals rfl
  | load opcode x offset => exact get_bind_congr h fun _ a ↦ rfl
  | _ => rfl

theorem bindZeros_congr {dfg dfg' : DataFlowGraph} (h : dfg.valueType = dfg'.valueType)
    (vs : List Value) (regs : Registers) : bindZeros dfg vs regs = bindZeros dfg' vs regs := by
  induction vs generalizing regs with
  | nil => rfl
  | cons v vs ih =>
      simp only [bindZeros, h]
      cases SimValue.zeroOf (dfg'.valueType v) with
      | none => rfl
      | some zero => exact ih _

section

variable [RustCore] {func : Function} {state : RunState} {inst : Inst}

variable (inst) in
theorem computeStep_mapValues {data : InstructionData}
    (h : ¬ ReadsAlias func.dfg state.registers (reads state.registers data)) :
    computeStep func state inst (data.mapValues func.dfg.resolveAliases) =
      computeStep func state inst data := by
  rw [computeStep, compute_mapValues h, InstructionData.opcode_mapValues]
  rfl

omit [RustCore] in
theorem branchTo_mapValues (dest : BlockCall)
    (h : ¬ ReadsAlias func.dfg state.registers dest.values) (line : String) :
    branchTo state (InstructionData.mapValues.mapDest func.dfg.resolveAliases dest) line =
      branchTo state dest line := by
  rw [branchTo, InstructionData.values_mapDest, getAll_congr _ h]
  rfl

omit [RustCore] in
theorem brifStep_mapValues (opcode : Opcode) {c : Value} {thenDest elseDest : BlockCall}
    (h : ¬ ReadsAlias func.dfg state.registers
      (reads state.registers (.brif opcode c thenDest elseDest))) :
    brifStep state (func.dfg.resolveAliases c)
        (InstructionData.mapValues.mapDest func.dfg.resolveAliases thenDest)
        (InstructionData.mapValues.mapDest func.dfg.resolveAliases elseDest) =
      brifStep state c thenDest elseDest := by
  unfold brifStep
  rw [DataFlowGraph.resolveAliases_of_aliasOf_eq_none (ReadsAlias.head_eq_none h)]
  cases hc : state.registers c with
  | none => simp only [RunState.get, hc]
  | some x =>
      rw [reads_brif hc] at h
      have htail := ReadsAlias.tail h hc
      simp only [RunState.get_eq_ok hc]
      generalize decide (x.asI64 ≠ 0) = cond at htail ⊢
      cases cond with
      | true => exact branchTo_mapValues thenDest htail _
      | false => exact branchTo_mapValues elseDest htail _

theorem storeStep_mapValues {opcode : Opcode} {x p : Value} {offset : BitVec 32}
    (h : ¬ ReadsAlias func.dfg state.registers [x, p]) :
    storeStep func state inst opcode (func.dfg.resolveAliases x) (func.dfg.resolveAliases p)
        offset = storeStep func state inst opcode x p offset := by
  unfold storeStep
  rw [DataFlowGraph.resolveAliases_of_aliasOf_eq_none (ReadsAlias.head_eq_none h)]
  cases hx : state.registers x with
  | none => simp only [RunState.get, hx]
  | some val =>
      rw [DataFlowGraph.resolveAliases_of_aliasOf_eq_none
        (ReadsAlias.head_eq_none (ReadsAlias.tail h hx))]

/-- An instruction that reads no alias does the same with all its operands resolved. -/
theorem step_mapValues {data : InstructionData}
    (h : ¬ ReadsAlias func.dfg state.registers (reads state.registers data)) :
    step func state inst (data.mapValues func.dfg.resolveAliases) =
      step func state inst data := by
  cases data with
  | store opcode x p offset => exact storeStep_mapValues h
  | jump opcode dest => exact branchTo_mapValues dest h _
  | brif opcode c thenDest elseDest => exact brifStep_mapValues opcode h
  | multiAry opcode args =>
      cases opcode
      case return_ =>
        show returnStep state (args.map _) = returnStep state args
        rw [returnStep, getAll_congr args h]
        rfl
      all_goals exact computeStep_mapValues inst h
  | call opcode args funcRef =>
      show callStep func state inst funcRef (args.map _) = callStep func state inst funcRef args
      rw [callStep, getAll_congr args h]
      rfl
  | _ => exact computeStep_mapValues inst h

/-- An instruction that reads an alias fails for an alias. -/
theorem step_undefinedAlias {data : InstructionData}
    (hunbound : AliasesUnbound func.dfg state.registers)
    (h : ReadsAlias func.dfg state.registers (reads state.registers data)) :
    ∃ v, (func.dfg.aliasOf v).isSome ∧
      step func state inst data = (state, .error (.undefinedValue v)) := by
  obtain ⟨v, hv, herror⟩ := getAll_undefinedAlias _ hunbound h
  exact ⟨v, hv, step_of_reads_error herror⟩

/-- The function with its operands resolved differs in its operands only. -/
theorem step_resolveAllAliases (data : InstructionData) :
    step func.resolveAllAliases state inst data = step func state inst data := by
  cases data with
  | multiAry opcode args => cases opcode <;> rfl
  | call opcode args funcRef =>
      have hfill (state : RunState) :
          fillResults func.resolveAllAliases inst state = fillResults func inst state := by
        rw [fillResults_eq, fillResults_eq,
          bindZeros_congr (show func.resolveAllAliases.dfg.valueType = func.dfg.valueType from rfl)]
        rfl
      show callStep func.resolveAllAliases state inst funcRef args =
        callStep func state inst funcRef args
      simp only [callStep, hfill]
      rfl
  | _ => rfl

/-! ## Whole runs -/

omit [RustCore] in
theorem AliasesUnbound.insertAll {dfg : DataFlowGraph} {registers : Registers}
    (h : AliasesUnbound dfg registers) {vs : List Value}
    (hvs : ∀ v ∈ vs, dfg.aliasOf v = none) (xs : List SimValue) :
    AliasesUnbound dfg (Env.insertAll vs xs registers) := by
  intro v halias
  have hv : v ∉ vs := by
    intro hmem
    rw [hvs v hmem] at halias
    cases halias
  rw [Env.insertAll_of_not_mem hv]
  exact h v halias

omit [RustCore] in
theorem aliasesUnbound_start (sim : Simulator) (hwf : AliasesWellFormed func)
    (args : List SimValue) : AliasesUnbound func.dfg (sim.start func args).state.registers := by
  have hempty : AliasesUnbound func.dfg sim.initState.registers := fun _ _ ↦ rfl
  unfold Simulator.start
  cases func.layout.entryBlock with
  | none => exact hempty
  | some entry => exact hempty.insertAll (hwf.params entry) args

/-- One instruction binds no alias. -/
theorem aliasesUnbound_next (hwf : AliasesWellFormed func) {config : Config}
    (h : AliasesUnbound func.dfg config.state.registers) :
    AliasesUnbound func.dfg ((machine func).next config).state.registers := by
  cases hdone : (machine func).done config with
  | some halt => rwa [next_of_done hdone]
  | none =>
      obtain ⟨p, inst, hp, hinst⟩ := done_eq_none_iff.mp hdone
      rw [next_of_instAt hp hinst]
      have hstep : AliasesUnbound func.dfg
          (step func config.state inst (func.data inst)).1.registers := by
        intro v halias
        have hv : v ∉ func.dfg.instResults inst := by
          intro hmem
          rw [hwf.results inst v hmem] at halias
          cases halias
        rw [registers_step_of_not_mem hv]
        exact h v halias
      generalize step func config.state inst (func.data inst) = outcome at hstep ⊢
      obtain ⟨state', r⟩ := outcome
      cases r with
      | jump target params => exact hstep.insertAll (hwf.params target) params
      | error err =>
          show AliasesUnbound func.dfg (RunState.logHalt _ _ _).registers
          rw [RunState.registers_logHalt]
          exact hstep
      | _ => exact hstep

theorem aliasesUnbound_configAfter (sim : Simulator) (hwf : AliasesWellFormed func)
    (args : List SimValue) (n : Nat) :
    AliasesUnbound func.dfg (sim.configAfter func args n).state.registers := by
  induction n with
  | zero => exact aliasesUnbound_start sim hwf args
  | succ n ih =>
      rw [Simulator.configAfter_succ]
      exact aliasesUnbound_next hwf ih

/-- The next instruction of the configuration reads an alias. -/
def NextReadsAlias (func : Function) (config : Config) : Prop :=
  ∃ p inst, config.status = .running p ∧ func.instAt p = some inst ∧
    ReadsAlias func.dfg config.state.registers (reads config.state.registers (func.data inst))

theorem next_resolveAllAliases {config : Config}
    (hdone : (machine func).done config = none) (h : ¬ NextReadsAlias func config) :
    (machine func.resolveAllAliases).next config = (machine func).next config := by
  obtain ⟨p, inst, hp, hinst⟩ := done_eq_none_iff.mp hdone
  have hinst' : func.resolveAllAliases.instAt p = some inst := hinst
  have hread : ¬ ReadsAlias func.dfg config.state.registers
      (reads config.state.registers (func.data inst)) :=
    fun hread ↦ h ⟨p, inst, hp, hinst, hread⟩
  have hstep : step func.resolveAllAliases config.state inst (func.resolveAllAliases.data inst) =
      step func config.state inst (func.data inst) := by
    rw [step_resolveAllAliases]
    exact step_mapValues hread
  rw [next_of_instAt hp hinst, next_of_instAt hp hinst', hstep]
  cases (step func config.state inst (func.data inst)).2 <;> rfl

/-- As long as no executed instruction reads an alias, resolving all aliases changes
nothing. -/
theorem exec_resolveAllAliases {sim : Simulator} {args : List SimValue}
    (h : ∀ n < sim.maxSteps, ¬ NextReadsAlias func (sim.configAfter func args n)) :
    sim.exec func.resolveAllAliases args = sim.exec func args := by
  have hrun : (machine func.resolveAllAliases).run sim.maxSteps (sim.start func args) =
      (machine func).run sim.maxSteps (sim.start func args) :=
    Machine.run_eq_of_agree (N := machine func.resolveAllAliases) (M := machine func) rfl
      fun n hn hdone ↦ next_resolveAllAliases hdone (h n hn)
  have hstart : sim.start func.resolveAllAliases args = sim.start func args := rfl
  rw [Simulator.exec_eq, Simulator.exec_eq, hstart, hrun]
  rfl

/-- A run ends in an undefined value only if that is an operand of some instruction. -/
theorem mem_operands_of_run {sim : Simulator} {args : List SimValue} {r : SimResult} {v : Value}
    (hr : sim.run func args = some r) (herror : r.error = some (.undefinedValue v)) :
    ∃ inst, v ∈ (func.data inst).operands := by
  obtain ⟨exit, hexit⟩ := exists_exec sim func args
  rw [run_of_exec hexit] at hr
  cases hr
  rcases exec_spec (n := sim.maxSteps) hexit with hended | hstop
  · exact hended.raises _ herror
  · rw [LoopExit.toResult, hstop.error] at herror
    cases herror

/-- With all aliases resolved no run ends for an alias. -/
theorem not_undefinedAlias_resolveAllAliases (hwf : AliasesWellFormed func) {sim : Simulator}
    {args : List SimValue} {r : SimResult} {v : Value}
    (hr : sim.run func.resolveAllAliases args = some r)
    (herror : r.error = some (.undefinedValue v)) : func.dfg.aliasOf v = none := by
  obtain ⟨inst, hv⟩ := mem_operands_of_run hr herror
  have hdata : func.resolveAllAliases.data inst =
      (func.data inst).mapValues func.dfg.resolveAliases := rfl
  rw [hdata, InstructionData.operands_mapValues] at hv
  obtain ⟨u, -, rfl⟩ := List.mem_map.mp hv
  exact hwf.resolves u

/-- What of a run must not depend on aliases. -/
def SimResult.outcome (r : SimResult) : List SimValue × Memory × Option SimError :=
  (r.returns, r.memory, r.error)

/-- **Resolving aliases changes a run exactly if an executed instruction reads one.**  The
run of a function with well-formed aliases has the returns, memory and error of the run
of the function with every operand resolved if and only if none of the instructions
executed within the budget reads an alias. -/
theorem alias_transparent_iff (sim : Simulator) (hwf : AliasesWellFormed func)
    (args : List SimValue) :
    (sim.run func args).map SimResult.outcome =
        (sim.run func.resolveAllAliases args).map SimResult.outcome ↔
      ∀ n < sim.maxSteps, ¬ NextReadsAlias func (sim.configAfter func args n) := by
  constructor
  · rintro hsame n hn ⟨p, inst, hp, hinst, hread⟩
    obtain ⟨v, halias, hstep⟩ :=
      step_undefinedAlias (aliasesUnbound_configAfter sim hwf args n) hread
    obtain ⟨exit, hexit⟩ := exists_exec sim func.resolveAllAliases args
    have hrun := run_of_exec hexit
    rw [run_of_step_error hn hp hinst hstep, hrun, Option.map_some, Option.map_some,
      Option.some.injEq] at hsame
    have herror : exit.toResult.error = some (.undefinedValue v) :=
      (congrArg (fun o ↦ o.2.2) hsame).symm
    rw [not_undefinedAlias_resolveAllAliases hwf hrun herror] at halias
    cases halias
  · intro h
    rw [Simulator.run, Simulator.run, exec_resolveAllAliases h]

end

/-! ## A use of an alias -/

section

local instance aliasFmt : RustCore := .blank

/-- A branch of which one side uses the alias `v1` of `v0`:
```
block0(v0: i64):  brif v0, block1, block2
block1:           return v0
block2:           return v1
``` -/
def returnAlias : Function :=
  .ofTables ⟨[.I64], [.I64]⟩
    [(.brif .brif ⟨0⟩ ⟨⟨1⟩, []⟩ ⟨⟨2⟩, []⟩, []), (.multiAry .return_ [⟨0⟩], []),
      (.multiAry .return_ [⟨1⟩], [])]
    [([⟨0⟩], [⟨0⟩]), ([], [⟨1⟩]), ([], [⟨2⟩])] [.I64, .I64] [(⟨1⟩, ⟨0⟩)] []

theorem aliasesWellFormed_returnAlias : AliasesWellFormed returnAlias where
  results := by
    rintro ⟨i⟩ v hv
    match i with
    | 0 | 1 | 2 | _ + 3 => cases hv
  params := by
    rintro ⟨b⟩ v hv
    match b with
    | 0 =>
        have hv' : v ∈ [(⟨0⟩ : Value)] := hv
        obtain rfl := List.mem_singleton.mp hv'
        rfl
    | 1 | 2 | _ + 3 => cases hv
  resolves := by
    rintro ⟨v⟩
    match v with
    | 0 | 1 => rfl
    | v + 2 =>
        have hne : ((⟨v + 2⟩ : Value) == ⟨1⟩) = false := by simp
        have hnone : returnAlias.dfg.aliasOf ⟨v + 2⟩ = none := by
          show List.lookup (⟨v + 2⟩ : Value) [((⟨1⟩ : Value), (⟨0⟩ : Value))] = none
          rw [List.lookup_cons, hne]
          rfl
        rw [DataFlowGraph.resolveAliases_of_aliasOf_eq_none hnone, hnone]

/-- From 7 the branch goes to the side without an alias. -/
theorem alias_transparent_returnAlias :
    ((Simulator.ofBudget 2).run returnAlias [.I64 7]).map SimResult.outcome =
      ((Simulator.ofBudget 2).run returnAlias.resolveAllAliases [.I64 7]).map
        SimResult.outcome := by
  refine (alias_transparent_iff (.ofBudget 2) aliasesWellFormed_returnAlias
    [.I64 7]).mpr ?_
  rintro n hn ⟨p, inst, hp, hinst, hread⟩
  match n, hn with
  | 0, _ | 1, _ =>
      cases hp
      cases hinst
      rcases hread with halias | ⟨-, hrest⟩
      · cases halias
      · exact hrest

/-- From 0 it goes to the use of the alias, which is undefined, where `v0` is returned. -/
theorem returnAlias_undefined :
    ¬ ∀ (sim : Simulator) (func : Function) (args : List SimValue), AliasesWellFormed func →
      (sim.run func args).map SimResult.outcome =
        (sim.run func.resolveAllAliases args).map SimResult.outcome := by
  intro h
  have hsame := h (.ofBudget 2) returnAlias [.I64 0] aliasesWellFormed_returnAlias
  have halias : ((Simulator.ofBudget 2).run returnAlias [.I64 0]).map
      SimResult.outcome = some ([], .empty, some (.undefinedValue ⟨1⟩)) := rfl
  have hresolved : ((Simulator.ofBudget 2).run returnAlias.resolveAllAliases
      [.I64 0]).map SimResult.outcome = some ([.I64 0], .empty, none) := rfl
  rw [halias, hresolved] at hsame
  cases hsame

end

end LowerIrUtils.Sim
