import LowerIrUtils.Sim.Typing

/-!
# Type soundness of the simulator

In a run of a verified function the registers stay typed, and the operands of the next
instruction are bound: a definition that dominates the instruction has been passed, and
a register is never cleared.  So a run can only end with a return, an access out of
bounds, or an exhausted budget.
-/

namespace LowerIrUtils.Sim

open Clif

/-! ## The invariant -/

/-- The run has reached the point `p` with typed registers in which every definition on the
way to `p` is bound. -/
structure SoundAt (func : Function) (entry : Block) (registers : Registers)
    (p : Function.Point) : Prop where
  block : p.block ∈ func.layout.blocks
  inst : ∃ inst, func.instAt p = some inst
  along : Along func.Edge ⟨entry, 0⟩ (fun d regs ↦ Bound regs (func.resultsAt d))
    (fun d regs ↦ Bound regs (func.paramsAt d)) p registers

/-- What holds of where a run is. -/
def SoundStatus (func : Function) (entry : Block) (registers : Registers) : Status → Prop
  | .running p => SoundAt func entry registers p
  | .halted (.ended vals none) => vals.map SimValue.ty = func.signature.returns
  | .halted (.ended vals (some e)) =>
      vals = [] ∧ ∃ addr size memoryLen, e = .outOfBounds addr size memoryLen
  | .halted .panicked => False

/-- The invariant of a run of a verified function. -/
structure Sound (func : Function) (entry : Block) (config : Config) : Prop where
  typed : RegistersTyped func config.state.registers
  status : SoundStatus func entry config.state.registers config.status

variable {func : Function} {entry : Block}

/-- Registers are never cleared. -/
theorem Bound.insertAll {registers : Registers} {us : List Value} (h : Bound registers us)
    (vs : List Value) (xs : List SimValue) : Bound (Env.insertAll vs xs registers) us := by
  intro v hv
  exact Env.isSome_insertAll_of_isSome (h v hv) vs xs

/-- Values that as many others are bound to are bound. -/
theorem bound_insertAll_self {vs : List Value} {xs : List SimValue}
    (htys : xs.map SimValue.ty = vs.map func.dfg.valueType) (registers : Registers) :
    Bound (Env.insertAll vs xs registers) vs := by
  have hlen : xs.length = vs.length := by simpa using congrArg List.length htys
  intro v hv
  exact Env.isSome_insertAll_of_mem hv (Nat.le_of_eq hlen.symm) registers

theorem resultsAt_of_instAt {p : Function.Point} {inst : Inst} (h : func.instAt p = some inst) :
    func.resultsAt p = func.dfg.instResults inst := by
  rw [Function.resultsAt, h]
  rfl

theorem paramsAt_zero (b : Block) : func.paramsAt ⟨b, 0⟩ = func.dfg.blockParams b := if_pos rfl

theorem paramsAt_succ (b : Block) (i : Nat) : func.paramsAt ⟨b, i + 1⟩ = [] :=
  if_neg (Nat.succ_ne_zero i)

namespace SoundAt

variable {registers : Registers} {p : Function.Point} {inst : Inst}

/-- The operands of the next instruction are bound. -/
theorem bound_operands (h : SoundAt func entry registers p) (hv : Verified func entry)
    (hinst : func.instAt p = some inst) : Bound registers (func.data inst).operands := by
  intro v hmem
  rcases hv.dominated p inst h.block hinst v hmem with ⟨d, hd, hdom⟩ | ⟨d, hd, hdom⟩
  · exact h.along.left_of_strictlyDominates hdom v hd
  · exact h.along.entered_of_dominates hdom v hd

/-- Go on to the next instruction of the block. -/
theorem fall (h : SoundAt func entry registers p) (hv : Verified func entry)
    (hinst : func.instAt p = some inst) (hterm : (func.data inst).isTerminator = false)
    {xs : List SimValue}
    (htys : xs.map SimValue.ty = (func.dfg.instResults inst).map func.dfg.valueType) :
    SoundAt func entry (Env.insertAll (func.dfg.instResults inst) xs registers)
      ⟨p.block, p.index + 1⟩ where
  block := h.block
  inst := hv.exists_instAt_succ h.block hinst hterm
  along := by
    refine h.along.step (.fall hinst hterm) ?_ ?_ ?_ ?_
    · rw [resultsAt_of_instAt hinst]
      exact bound_insertAll_self htys registers
    · rw [paramsAt_succ]
      intro v hmem
      cases hmem
    · intro d hd
      exact hd.insertAll _ _
    · intro d hd
      exact hd.insertAll _ _

/-- Take a branch. -/
theorem branch (h : SoundAt func entry registers p) (hv : Verified func entry)
    (hinst : func.instAt p = some inst) {dest : BlockCall}
    (hdest : dest ∈ (func.data inst).destinations) (htarget : dest.block ∈ func.layout.blocks)
    (hresults : func.dfg.instResults inst = []) {params : List SimValue}
    (htys : params.map SimValue.ty =
      (func.dfg.blockParams dest.block).map func.dfg.valueType) :
    SoundAt func entry (Env.insertAll (func.dfg.blockParams dest.block) params registers)
      ⟨dest.block, 0⟩ where
  block := htarget
  inst := hv.exists_instAt_zero htarget
  along := by
    refine h.along.step (.branch hinst hdest) ?_ ?_ ?_ ?_
    · rw [resultsAt_of_instAt hinst, hresults]
      intro v hmem
      cases hmem
    · rw [paramsAt_zero]
      exact bound_insertAll_self htys registers
    · intro d hd
      exact hd.insertAll _ _
    · intro d hd
      exact hd.insertAll _ _

end SoundAt

theorem sound_start (sim : Simulator) (hv : Verified func entry) {args : List SimValue}
    (hargs : args.map SimValue.ty = func.signature.params) :
    Sound func entry (sim.start func args) := by
  have hstart : sim.start func args = ⟨.running ⟨entry, 0⟩, sim.entryState func entry args⟩ := by
    rw [Simulator.start, hv.isEntry]
  have htys : args.map SimValue.ty = (func.dfg.blockParams entry).map func.dfg.valueType :=
    hargs.trans hv.entryParams.symm
  rw [hstart]
  constructor
  · exact (RegistersTyped.empty func).insertAll htys
  · exact
      { block := hv.mem_blocks_of_entry
        inst := hv.exists_instAt_zero hv.mem_blocks_of_entry
        along := .refl (by rw [paramsAt_zero]; exact bound_insertAll_self htys _) }

/-! ## Steps and runs -/

section

variable [RustCore]

/-- The outcome of the next instruction of a verified function. -/
theorem SoundAt.progress {state : RunState} {p : Function.Point} {inst : Inst}
    (h : SoundAt func entry state.registers p) (hv : Verified func entry)
    (htyped : RegistersTyped func state.registers) (hinst : func.instAt p = some inst) :
    Progress func state inst (func.data inst) (step func state inst (func.data inst)).1
      (step func state inst (func.data inst)).2 :=
  progress_step (hv.typed_instAt h.block hinst) htyped (h.bound_operands hv hinst)

/-- One instruction keeps the invariant. -/
theorem sound_next (hv : Verified func entry) {config : Config} (h : Sound func entry config) :
    Sound func entry ((machine func).next config) := by
  cases hdone : (machine func).done config with
  | some halt => rwa [next_of_done hdone]
  | none =>
      obtain ⟨p, inst, hp, hinst⟩ := done_eq_none_iff.mp hdone
      have hat : SoundAt func entry config.state.registers p := by
        have hstatus := h.status
        rwa [hp] at hstatus
      have hprogress := hat.progress hv h.typed hinst
      rw [next_of_instAt hp hinst]
      generalize step func config.state inst (func.data inst) = outcome at hprogress ⊢
      obtain ⟨state', r⟩ := outcome
      change Progress func config.state inst (func.data inst) state' r at hprogress
      cases hprogress with
      | bind hterm hregisters htys =>
          refine ⟨?_, ?_⟩
          · show RegistersTyped func state'.registers
            rw [hregisters]
            exact h.typed.insertAll htys
          · show SoundAt func entry state'.registers _
            rw [hregisters]
            exact hat.fall hv hinst hterm htys
      | branch hdest htarget hresults hregisters htys =>
          refine ⟨?_, ?_⟩
          · show RegistersTyped func (Env.insertAll _ _ state'.registers)
            rw [hregisters]
            exact h.typed.insertAll htys
          · show SoundAt func entry (Env.insertAll _ _ state'.registers) _
            rw [hregisters]
            exact hat.branch hv hinst hdest htarget hresults htys
      | return_ hregisters htys =>
          refine ⟨?_, htys⟩
          show RegistersTyped func state'.registers
          rw [hregisters]
          exact h.typed
      | outOfBounds =>
          refine ⟨?_, rfl, _, _, _, rfl⟩
          show RegistersTyped func (RunState.logHalt _ _ _).registers
          rw [RunState.registers_logHalt]
          exact h.typed

theorem sound_configAfter (sim : Simulator) (hv : Verified func entry) {args : List SimValue}
    (hargs : args.map SimValue.ty = func.signature.params) (n : Nat) :
    Sound func entry (sim.configAfter func args n) := by
  induction n with
  | zero => exact sound_start sim hv hargs
  | succ n ih =>
      rw [Simulator.configAfter_succ]
      exact sound_next hv ih

/-- A run of a verified function that ends by itself returns values of the types of the
signature, or fails with an access out of bounds. -/
theorem sound_of_haltsAt {sim : Simulator} (hv : Verified func entry) {args : List SimValue}
    (hargs : args.map SimValue.ty = func.signature.params) {k : Nat} {returns : List SimValue}
    {error : Option SimError}
    (h : (machine func).HaltsAt (sim.start func args) k (.ended returns error)) :
    (error = none ∧ returns.map SimValue.ty = func.signature.returns) ∨
      (returns = [] ∧ ∃ addr size memoryLen, error = some (.outOfBounds addr size memoryLen)) := by
  have hsound := (sound_configAfter sim hv hargs k).status
  have hdone : done func (sim.configAfter func args k) = some (.ended returns error) := h.2
  unfold done at hdone
  cases hstatus : (sim.configAfter func args k).status with
  | running p =>
      rw [hstatus] at hdone hsound
      obtain ⟨inst, hinst⟩ := hsound.inst
      simp only [hinst, reduceCtorEq] at hdone
  | halted halt =>
      rw [hstatus] at hdone hsound
      cases hdone
      cases error with
      | none => exact .inl ⟨rfl, hsound⟩
      | some e =>
          obtain ⟨hreturns, addr, size, memoryLen, rfl⟩ := hsound
          exact .inr ⟨hreturns, addr, size, memoryLen, rfl⟩

/-- **Type soundness.**  A verified function is run on arguments of the types of its
signature.  In every configuration reached, every bound register holds a value of its
declared type; and the run ends with a return of values of the types of the signature,
with an access out of bounds, or with an exhausted budget. -/
theorem type_soundness (sim : Simulator) (hv : Verified func entry) (args : List SimValue)
    (hargs : args.map SimValue.ty = func.signature.params) :
    (∀ n, RegistersTyped func (sim.configAfter func args n).state.registers) ∧
      ∃ r, sim.run func args = some r ∧ RegistersTyped func r.registers ∧
        ((r.error = none ∧ r.returns.map SimValue.ty = func.signature.returns) ∨
          (r.returns = [] ∧
            ((∃ addr size memoryLen, r.error = some (.outOfBounds addr size memoryLen)) ∨
              r.error = some (.stepLimitExceeded sim.maxSteps)))) := by
  have htyped (n : Nat) := (sound_configAfter sim hv hargs n).typed
  refine ⟨htyped, ?_⟩
  obtain ⟨exit, hexit⟩ := exists_exec sim func args
  obtain ⟨-, hregisters, -⟩ := exec_state hexit
  refine ⟨exit.toResult, run_of_exec hexit, ?_, ?_⟩
  · show RegistersTyped func exit.state.registers
    rw [hregisters]
    exact htyped exit.steps
  · rcases exec_spec (n := sim.maxSteps) hexit with hended | hstop
    · rcases sound_of_haltsAt hv hargs hended.halts with hreturn | ⟨hreturns, hbounds⟩
      · exact .inl hreturn
      · exact .inr ⟨hreturns, .inl hbounds⟩
    · exact .inr ⟨hstop.returns, .inr hstop.error⟩

end

/-! ## A verified loop -/

/-- A loop that counts down to zero:
```
block0(v0: i8):  v1 = iconst.i8 1;   jump block1(v0)
block1(v2: i8):  v3 = isub v2, v1;   brif v3, block1(v3), block2
block2:          return v3
``` -/
def countdown : Function :=
  .ofTables ⟨[.I8], [.I8]⟩
    [(.unaryImm .iconst 1, [⟨1⟩]), (.jump .jump ⟨⟨1⟩, [.value ⟨0⟩]⟩, []),
      (.binary .isub ⟨2⟩ ⟨1⟩, [⟨3⟩]), (.brif .brif ⟨3⟩ ⟨⟨1⟩, [.value ⟨3⟩]⟩ ⟨⟨2⟩, []⟩, []),
      (.multiAry .return_ [⟨3⟩], [])]
    [([⟨0⟩], [⟨0⟩, ⟨1⟩]), ([⟨2⟩], [⟨2⟩, ⟨3⟩]), ([], [⟨4⟩])]
    [.I8, .I8, .I8, .I8] [] []

namespace Countdown

/-- The instructions of `countdown`, by program point. -/
def insts : List (Function.Point × Inst) :=
  [(⟨⟨0⟩, 0⟩, ⟨0⟩), (⟨⟨0⟩, 1⟩, ⟨1⟩), (⟨⟨1⟩, 0⟩, ⟨2⟩), (⟨⟨1⟩, 1⟩, ⟨3⟩), (⟨⟨2⟩, 0⟩, ⟨4⟩)]

/-- The edges of `countdown`. -/
def edges : List (Function.Point × Function.Point) :=
  [(⟨⟨0⟩, 0⟩, ⟨⟨0⟩, 1⟩), (⟨⟨0⟩, 1⟩, ⟨⟨1⟩, 0⟩), (⟨⟨1⟩, 0⟩, ⟨⟨1⟩, 1⟩), (⟨⟨1⟩, 1⟩, ⟨⟨1⟩, 0⟩),
    (⟨⟨1⟩, 1⟩, ⟨⟨2⟩, 0⟩)]

/-- Which point strictly dominates which, as far as the uses of `countdown` need it. -/
def dominators : List (Function.Point × Function.Point) :=
  [(⟨⟨0⟩, 0⟩, ⟨⟨0⟩, 1⟩), (⟨⟨0⟩, 0⟩, ⟨⟨1⟩, 0⟩), (⟨⟨0⟩, 0⟩, ⟨⟨1⟩, 1⟩), (⟨⟨1⟩, 0⟩, ⟨⟨1⟩, 1⟩),
    (⟨⟨1⟩, 0⟩, ⟨⟨2⟩, 0⟩)]

theorem mem_insts {p : Function.Point} {inst : Inst} (h : countdown.instAt p = some inst) :
    (p, inst) ∈ insts := by
  obtain ⟨⟨b⟩, i⟩ := p
  match b, i with
  | 0, 0 | 0, 1 | 1, 0 | 1, 1 | 2, 0 => cases h; simp [insts]
  | 0, _ + 2 | 1, _ + 2 | 2, _ + 1 | _ + 3, _ => cases h

theorem mem_edges {p q : Function.Point} (h : countdown.Edge p q) : (p, q) ∈ edges := by
  have hfall : ∀ x ∈ insts, (countdown.data x.2).isTerminator = false →
      (x.1, ⟨x.1.block, x.1.index + 1⟩) ∈ edges := by decide
  have hbranch : ∀ x ∈ insts, ∀ dest ∈ (countdown.data x.2).destinations,
      (x.1, ⟨dest.block, 0⟩) ∈ edges := by decide
  cases h with
  | fall hinst hterm => exact hfall _ (mem_insts hinst) hterm
  | branch hinst hdest => exact hbranch _ (mem_insts hinst) _ hdest

theorem strictlyDominates {d p : Function.Point} (h : (d, p) ∈ dominators) :
    StrictlyDominates countdown.Edge ⟨⟨0⟩, 0⟩ d p := by
  have hentry : ∀ x ∈ dominators, x.2 ≠ ⟨⟨0⟩, 0⟩ := by decide
  have hclosed : ∀ x ∈ dominators, ∀ e ∈ edges, e.2 = x.2 →
      x.1 = e.1 ∨ (x.1, e.1) ∈ dominators := by decide
  refine strictlyDominates_of_closed (D := fun d p ↦ (d, p) ∈ dominators) ?_ ?_ h
  · intro d hd
    exact hentry _ hd rfl
  · intro d p q hd hedge
    exact hclosed _ hd _ (mem_edges hedge) rfl

theorem verified : Verified countdown ⟨0⟩ where
  isEntry := rfl
  entryParams := rfl
  terminator := by
    have hblocks : countdown.layout.blocks = [⟨0⟩, ⟨1⟩, ⟨2⟩] := rfl
    rw [hblocks]
    simp only [List.forall_mem_cons]
    exact ⟨⟨[⟨0⟩], ⟨1⟩, rfl, rfl, by decide⟩, ⟨[⟨2⟩], ⟨3⟩, rfl, rfl, by decide⟩,
      ⟨[], ⟨4⟩, rfl, rfl, by decide⟩, List.forall_mem_nil _⟩
  typed := by
    have hblocks : countdown.layout.blocks = [⟨0⟩, ⟨1⟩, ⟨2⟩] := rfl
    rw [hblocks]
    have htarget (b : Block) (h : b ∈ [(⟨0⟩ : Block), ⟨1⟩, ⟨2⟩]) :
        b ∈ countdown.layout.blocks := h
    simp only [List.forall_mem_cons]
    refine ⟨?_, ?_, ?_, List.forall_mem_nil _⟩
    · show ∀ inst ∈ [(⟨0⟩ : Inst), ⟨1⟩], _
      simp only [List.forall_mem_cons]
      exact ⟨.iconst rfl, .jump ⟨htarget _ (by decide), rfl, rfl⟩, List.forall_mem_nil _⟩
    · show ∀ inst ∈ [(⟨2⟩ : Inst), ⟨3⟩], _
      simp only [List.forall_mem_cons]
      exact ⟨.intBinary rfl rfl rfl rfl,
        .brif rfl ⟨htarget _ (by decide), rfl, rfl⟩ ⟨htarget _ (by decide), rfl, rfl⟩,
        List.forall_mem_nil _⟩
    · show ∀ inst ∈ [(⟨4⟩ : Inst)], _
      simp only [List.forall_mem_cons]
      exact ⟨.return_ rfl, List.forall_mem_nil _⟩
  dominated := by
    intro p inst _ hinst v hv
    have hmem := mem_insts hinst
    simp only [insts, List.mem_cons, Prod.mk.injEq, List.not_mem_nil, or_false] at hmem
    rcases hmem with ⟨rfl, rfl⟩ | ⟨rfl, rfl⟩ | ⟨rfl, rfl⟩ | ⟨rfl, rfl⟩ | ⟨rfl, rfl⟩
    · cases hv
    · have hv' : v ∈ [(⟨0⟩ : Value)] := hv
      obtain rfl := List.mem_singleton.mp hv'
      exact .inr ⟨⟨⟨0⟩, 0⟩, by decide, (strictlyDominates (by decide)).dominates⟩
    · have hv' : v ∈ [(⟨2⟩ : Value), ⟨1⟩] := hv
      simp only [List.mem_cons, List.not_mem_nil, or_false] at hv'
      rcases hv' with rfl | rfl
      · exact .inr ⟨⟨⟨1⟩, 0⟩, by decide, .refl _⟩
      · exact .inl ⟨⟨⟨0⟩, 0⟩, by decide, strictlyDominates (by decide)⟩
    · have hv' : v ∈ [(⟨3⟩ : Value), ⟨3⟩] := hv
      have hv'' : v = ⟨3⟩ := by simpa using hv'
      subst hv''
      exact .inl ⟨⟨⟨1⟩, 0⟩, by decide, strictlyDominates (by decide)⟩
    · have hv' : v ∈ [(⟨3⟩ : Value)] := hv
      obtain rfl := List.mem_singleton.mp hv'
      exact .inl ⟨⟨⟨1⟩, 0⟩, by decide, strictlyDominates (by decide)⟩

end Countdown

section

local instance soundnessFmt : RustCore := .blank

/-- The loop is sound when it is started at 3. -/
theorem type_soundness_countdown :
    ∃ r, (Simulator.ofBudget 9).run countdown [.I8 3] = some r ∧
      RegistersTyped countdown r.registers ∧
      ((r.error = none ∧ r.returns.map SimValue.ty = [.I8]) ∨
        (r.returns = [] ∧
          ((∃ addr size memoryLen, r.error = some (.outOfBounds addr size memoryLen)) ∨
            r.error = some (.stepLimitExceeded 9)))) :=
  (type_soundness (.ofBudget 9) Countdown.verified [.I8 3] rfl).2

example : ((Simulator.ofBudget 9).run countdown [.I8 3]).map SimResult.returns =
    some [.I8 0] := rfl

end

end LowerIrUtils.Sim
