import LowerIrUtils.Sim.Fault
import LowerIrUtils.Sim.Reads

/-!
# Block arguments that were forgotten

A branch binds the parameters of its target pair by pair to the arguments it passes, and
`run` does the same with its own arguments and the entry block.  Where there are fewer
arguments than parameters, the parameters left over receive nothing on this entry.

The register map belongs to the whole run and is never cleared, so such a parameter is
undefined only if nothing had bound it before.  `forgotten_iff` says that this is all
there is to it: every parameter forgotten in a run reads as undefined exactly if every
branch taken finds the parameters it leaves out unbound.
-/

namespace LowerIrUtils.Sim

open Clif

/-! ## Branches -/

/-- The branch an instruction takes: a `brif` decides on its condition. -/
def taken (registers : Registers) : InstructionData → Option BlockCall
  | .jump _ dest => some dest
  | .brif _ c thenDest elseDest =>
      (registers c).map fun x ↦ if decide (x.asI64 ≠ 0) then thenDest else elseDest
  | _ => none

section

variable {state state' : RunState} {dest : BlockCall} {target : Block} {params : List SimValue}

theorem branchTo_eq_jump {line : String}
    (h : branchTo state dest line = (state', .jump target params)) :
    dest.block = target ∧ state.getAll dest.values = .ok params := by
  unfold branchTo at h
  cases hvalues : state.getAll dest.values with
  | error e =>
      rw [hvalues] at h
      cases h
  | ok xs =>
      rw [hvalues] at h
      cases h
      exact ⟨rfl, rfl⟩

variable [RustCore] {func : Function} {inst : Inst} {data : InstructionData}

theorem exists_mem_destinations_of_step_jump
    (h : step func state inst data = (state', .jump target params)) :
    ∃ dest, dest ∈ data.destinations := by
  have heffect := effect_of_step h
  generalize hr : StepResult.jump target params = r at heffect
  cases heffect with
  | branch hdest hargs => exact ⟨_, hdest⟩
  | call hargs hz =>
      rename_i e
      cases e <;> cases hr
  | _ => cases hr

/-- An instruction that jumps takes a branch whose arguments are bound. -/
theorem taken_of_step_jump (h : step func state inst data = (state', .jump target params)) :
    ∃ dest, taken state.registers data = some dest ∧ dest.block = target ∧
      state.getAll dest.values = .ok params := by
  cases data with
  | jump opcode dest => exact ⟨dest, rfl, branchTo_eq_jump h⟩
  | brif opcode c thenDest elseDest =>
      have hbrif : brifStep state c thenDest elseDest = (state', .jump target params) := h
      unfold brifStep at hbrif
      cases hc : state.registers c with
      | none =>
          rw [RunState.get_of_eq_none hc] at hbrif
          cases hbrif
      | some x =>
          rw [RunState.get_eq_ok hc] at hbrif
          refine ⟨_, ?_, branchTo_eq_jump hbrif⟩
          simp only [taken, hc, Option.map_some]
  | _ =>
      obtain ⟨dest, hdest⟩ := exists_mem_destinations_of_step_jump h
      cases hdest

variable (func inst) in
/-- A branch whose arguments are bound is taken. -/
theorem step_of_taken (htaken : taken state.registers data = some dest)
    (hargs : state.getAll dest.values = .ok params) :
    ∃ line, step func state inst data = (state.log line, .jump dest.block params) := by
  cases data with
  | jump opcode d =>
      cases htaken
      refine ⟨s!"  jump block{dest.block.index}", ?_⟩
      have hstep : step func state inst (.jump opcode dest) =
          branchTo state dest s!"  jump block{dest.block.index}" := rfl
      rw [hstep, branchTo, hargs]
  | brif opcode c thenDest elseDest =>
      obtain ⟨x, hc, hdest⟩ := Option.map_eq_some_iff.mp htaken
      have hstep : step func state inst (.brif opcode c thenDest elseDest) =
          brifStep state c thenDest elseDest := rfl
      rw [hstep, brifStep, RunState.get_eq_ok hc]
      simp only [hdest, branchTo, hargs]
      exact ⟨_, rfl⟩
  | _ => cases htaken

end

/-! ## Entries -/

section

variable [RustCore] {sim : Simulator} {func : Function} {args : List SimValue}

variable (sim func args) in
/-- After `n` instructions block `b` has just been entered with `k` arguments: by `run`
itself, or by a branch that was the last of these instructions. -/
def Enters : Nat → Block → Nat → Prop
  | 0, b, k => func.layout.entryBlock = some b ∧ k = args.length
  | n + 1, b, k =>
      let config := sim.configAfter func args n
      ∃ p inst dest, config.status = .running p ∧ func.instAt p = some inst ∧
        taken config.state.registers (func.data inst) = some dest ∧
        (∀ a ∈ dest.values, (config.state.registers a).isSome) ∧
        dest.block = b ∧ dest.values.length = k

/-- A parameter of the block that `k` arguments leave out. -/
def LeftOut (func : Function) (b : Block) (k : Nat) (v : Value) : Prop :=
  v ∈ func.dfg.blockParams b ∧ v ∉ (func.dfg.blockParams b).take k

variable (sim func args) in
/-- The instruction due after `n` instructions has `v` among its results, or it enters a
block that has `v` as a parameter. -/
def Rebinds (n : Nat) (v : Value) : Prop :=
  (∃ p inst, (sim.configAfter func args n).status = .running p ∧ func.instAt p = some inst ∧
    v ∈ func.dfg.instResults inst) ∨
  ∃ b k, Enters sim func args (n + 1) b k ∧ v ∈ func.dfg.blockParams b

variable (sim func args) in
/-- After `n` instructions `v` is a parameter that received no argument on the most recent
entry to its block. -/
inductive Forgotten : Nat → Value → Prop
  | enter {n : Nat} {b : Block} {k : Nat} {v : Value} (h : Enters sim func args n b k)
      (hv : LeftOut func b k v) : Forgotten n v
  | later {n : Nat} {v : Value} (h : Forgotten n v) (hv : ¬ Rebinds sim func args n v) :
      Forgotten (n + 1) v

variable (sim func args) in
/-- Where the instruction due after `n` instructions enters a block, the parameters it
leaves out are unbound. -/
def LeavesUnbound (n : Nat) : Prop :=
  ∀ b k, Enters sim func args (n + 1) b k → ∀ v, LeftOut func b k v →
    (sim.configAfter func args n).state.registers v = none

/-- The next instruction of the configuration reads `v`. -/
def NextReads (func : Function) (config : Config) (v : Value) : Prop :=
  ∃ p inst pre post, config.status = .running p ∧ func.instAt p = some inst ∧
    reads config.state.registers (func.data inst) = pre ++ v :: post ∧
    ∀ u ∈ pre, (config.state.registers u).isSome

variable (sim func args) in
/-- What a run owes to a forgotten parameter: no value is left in its register, and if the
next instruction reads it, the run halts with `UndefinedValue` for it. -/
structure Unmasked (n : Nat) (v : Value) : Prop where
  unbound : (sim.configAfter func args n).state.registers v = none
  halts : n < sim.maxSteps → NextReads func (sim.configAfter func args n) v →
    ∃ r, sim.run func args = some r ∧ r.error = some (.undefinedValue v)

/-! ## One instruction -/

omit [RustCore] in
theorem registers_bindParams_of_leftOut {b : Block} {params : List SimValue} {v : Value}
    (h : LeftOut func b params.length v) (state : RunState) :
    (state.bindParams func b params).registers v = state.registers v :=
  Env.insertAll_of_not_mem_take h.2 _

/-- Entering a block leaves the parameters left out as they were. -/
theorem registers_of_enters {n : Nat} {b : Block} {k : Nat} {v : Value}
    (h : Enters sim func args (n + 1) b k) (hv : LeftOut func b k v) :
    (sim.configAfter func args (n + 1)).state.registers v =
      (sim.configAfter func args n).state.registers v := by
  obtain ⟨p, inst, dest, hp, hinst, htaken, hbound, rfl, rfl⟩ := h
  obtain ⟨params, hparams⟩ := RunState.exists_getAll_iff.mpr hbound
  obtain ⟨line, hstep⟩ := step_of_taken func inst htaken hparams
  have hlen : dest.values.length = params.length := by
    have hmap := Env.lookupAll_eq_ok_iff.mp (RunState.getAll_eq_ok_iff.mp hparams)
    simpa using congrArg List.length hmap
  rw [Simulator.configAfter_succ, next_of_instAt hp hinst, hstep]
  show (RunState.bindParams _ func dest.block params).registers v = _
  rw [hlen] at hv
  rw [registers_bindParams_of_leftOut hv, RunState.registers_log]

/-- A register changes only where it is bound. -/
theorem registers_of_not_rebinds {n : Nat} {v : Value} (h : ¬ Rebinds sim func args n v) :
    (sim.configAfter func args (n + 1)).state.registers v =
      (sim.configAfter func args n).state.registers v := by
  rw [Simulator.configAfter_succ]
  cases hdone : (machine func).done (sim.configAfter func args n) with
  | some halt => rw [next_of_done hdone]
  | none =>
      obtain ⟨p, inst, hp, hinst⟩ := done_eq_none_iff.mp hdone
      have hresults : v ∉ func.dfg.instResults inst :=
        fun hmem ↦ h (.inl ⟨p, inst, hp, hinst, hmem⟩)
      have hregs : (step func (sim.configAfter func args n).state inst
          (func.data inst)).1.registers v = _ := registers_step_of_not_mem hresults
      rw [next_of_instAt hp hinst]
      rcases hstep : step func (sim.configAfter func args n).state inst (func.data inst)
        with ⟨state', r⟩
      rw [hstep] at hregs
      cases r with
      | jump target params =>
          obtain ⟨dest, htaken, rfl, hparams⟩ := taken_of_step_jump hstep
          have henters : Enters sim func args (n + 1) dest.block dest.values.length :=
            ⟨p, inst, dest, hp, hinst, htaken, RunState.exists_getAll_iff.mp ⟨params, hparams⟩,
              rfl, rfl⟩
          have hparam : v ∉ func.dfg.blockParams dest.block :=
            fun hmem ↦ h (.inr ⟨_, _, henters, hmem⟩)
          exact (Env.insertAll_of_not_mem hparam _ _).trans hregs
      | error err => exact (congrFun (RunState.registers_logHalt state' err inst) v).trans hregs
      | _ => exact hregs

/-- A read of an unbound register halts the run with `UndefinedValue`. -/
theorem run_of_nextReads {n : Nat} {v : Value} (hn : n < sim.maxSteps)
    (hv : (sim.configAfter func args n).state.registers v = none)
    (h : NextReads func (sim.configAfter func args n) v) :
    ∃ r, sim.run func args = some r ∧ r.error = some (.undefinedValue v) := by
  obtain ⟨p, inst, pre, post, hp, hinst, hreads, hpre⟩ := h
  have hgetAll : RunState.getAll _ (pre ++ v :: post) = _ := RunState.getAll_eq_error hpre hv
  rw [← hreads] at hgetAll
  exact ⟨_, run_of_step_error hn hp hinst (step_of_reads_error hgetAll), rfl⟩

/-! ## Whole runs -/

theorem registers_start_of_leftOut {b : Block} {k : Nat} {v : Value}
    (h : Enters sim func args 0 b k) (hv : LeftOut func b k v) :
    (sim.configAfter func args 0).state.registers v = none := by
  obtain ⟨hentry, rfl⟩ := h
  have hstart : sim.configAfter func args 0 =
      ⟨.running ⟨b, 0⟩, sim.entryState func b args⟩ := by
    show sim.start func args = _
    simp only [Simulator.start, hentry]
  rw [hstart]
  exact registers_bindParams_of_leftOut hv _

/-- If every branch finds the parameters it leaves out unbound, forgotten ones stay so. -/
theorem registers_of_forgotten (h : ∀ n < sim.maxSteps, LeavesUnbound sim func args n) {n : Nat}
    {v : Value} (hn : n ≤ sim.maxSteps) (hv : Forgotten sim func args n v) :
    (sim.configAfter func args n).state.registers v = none := by
  induction hv with
  | @enter n b k v henters hleft =>
      cases n with
      | zero => exact registers_start_of_leftOut henters hleft
      | succ n =>
          rw [registers_of_enters henters hleft]
          exact h n hn b k henters v hleft
  | later hforgotten hrebinds ih =>
      rw [registers_of_not_rebinds hrebinds]
      exact ih (Nat.le_of_succ_le hn)

/-- **Forgotten arguments are noticed exactly where nothing masks them.**  In a run, every
parameter that received no argument on the most recent entry to its block is unbound, and
a read of it halts the run with `UndefinedValue` for it, if and only if every branch the
run takes finds the parameters it leaves out unbound. -/
theorem forgotten_iff (sim : Simulator) (func : Function) (args : List SimValue) :
    (∀ n ≤ sim.maxSteps, ∀ v, Forgotten sim func args n v → Unmasked sim func args n v) ↔
      ∀ n < sim.maxSteps, LeavesUnbound sim func args n := by
  constructor
  · intro h n hn b k henters v hleft
    rw [← registers_of_enters henters hleft]
    exact (h (n + 1) hn v (.enter henters hleft)).unbound
  · intro h n hn v hv
    have hunbound := registers_of_forgotten h hn hv
    exact ⟨hunbound, fun hlt ↦ run_of_nextReads hlt hunbound⟩

end

/-! ## A loop that forgets an argument -/

section

local instance blockArgsFmt : RustCore := .blank

/-- A loop that passes both parameters of `block1` on the first entry and one on the second:
```
block0(v0: i64):           v1 = iconst.i64 0; jump block1(v0, v0)
block1(v2: i64, v3: i64):  brif v2, block1(v1), block2
block2:                    return v3
``` -/
def forgetsSecond : Function :=
  .ofTables ⟨[.I64], [.I64]⟩
    [(.unaryImm .iconst 0, [⟨1⟩]), (.jump .jump ⟨⟨1⟩, [.value ⟨0⟩, .value ⟨0⟩]⟩, []),
      (.brif .brif ⟨2⟩ ⟨⟨1⟩, [.value ⟨1⟩]⟩ ⟨⟨2⟩, []⟩, []), (.multiAry .return_ [⟨3⟩], [])]
    [([⟨0⟩], [⟨0⟩, ⟨1⟩]), ([⟨2⟩, ⟨3⟩], [⟨2⟩]), ([], [⟨3⟩])] [.I64, .I64, .I64, .I64] [] []

/-- The second entry to `block1` forgets `v3`, which `block2` then reads. -/
theorem forgotten_forgetsSecond :
    Forgotten (.ofBudget 5) forgetsSecond [.I64 1] 4 ⟨3⟩ := by
  have henters : Enters (.ofBudget 5) forgetsSecond [.I64 1] 3 ⟨1⟩ 1 :=
    ⟨⟨⟨1⟩, 0⟩, ⟨2⟩, ⟨⟨1⟩, [.value ⟨1⟩]⟩, rfl, rfl, rfl, by decide, rfl, rfl⟩
  refine .later (.enter henters ⟨by decide, by decide⟩) ?_
  rintro (⟨p, inst, hp, hinst, hmem⟩ | ⟨b, k, henters, hmem⟩)
  · cases hp
    cases hinst
    cases hmem
  · obtain ⟨p, inst, dest, hp, hinst, htaken, -, rfl, -⟩ := henters
    cases hp
    cases hinst
    cases htaken
    cases hmem

/-- The `return` reads the value of the first entry, and the run returns it. -/
theorem forgetsSecond_masked :
    ¬ ∀ (sim : Simulator) (func : Function) (args : List SimValue) (n : Nat) (v : Value),
      n < sim.maxSteps → Forgotten sim func args n v →
      NextReads func (sim.configAfter func args n) v →
      ∃ r, sim.run func args = some r ∧ r.error = some (.undefinedValue v) := by
  intro h
  have hreads : NextReads forgetsSecond
      ((Simulator.ofBudget 5).configAfter forgetsSecond [.I64 1] 4) ⟨3⟩ :=
    ⟨⟨⟨2⟩, 0⟩, ⟨3⟩, [], [], rfl, rfl, rfl, by simp⟩
  obtain ⟨r, hr, herror⟩ :=
    h (.ofBudget 5) forgetsSecond [.I64 1] 4 ⟨3⟩ (by decide) forgotten_forgetsSecond hreads
  have hrun : ((Simulator.ofBudget 5).run forgetsSecond [.I64 1]).map SimResult.error =
      some none := rfl
  rw [hr, Option.map_some, herror] at hrun
  cases hrun

end

end LowerIrUtils.Sim
