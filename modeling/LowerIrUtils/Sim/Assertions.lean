import LowerIrUtils.Bits.Extend
import LowerIrUtils.Machine.Assertions
import LowerIrUtils.Sim.ReferenceRun

/-!
# Assertions at blocks

What a run of a function leaves can be proved a block at a time.  Where a block is entered,
something is asserted of the state, of the instructions that are left in the budget, and of
those executed.  The instructions of a block turn an assertion about what comes after them into
its weakest precondition (`wp`), and the assertions are checked if what is asserted of a block
implies that of its instructions (`Assertions.Checked`).

Checked assertions prove what they should, for verified functions and others, and whatever is
true of a run can be proved in this way (`exec_meets_iff`).  No termination measure is asked for
loops, as the budget is one.

For a verified function the assertions prove the same of the reference semantics
(`reference_meets`).
-/

namespace LowerIrUtils.Sim

open Clif Bits

theorem step_of_compute [RustCore] {func : Function} {state : RunState} {inst : Inst}
    {data : InstructionData} {v : SimValue} (h : compute func state inst data = .ok v) :
    step func state inst data = (bindResults func inst data.opcode [v] state, .continue_) := by
  have hcompute : computeStep func state inst data =
      (bindResults func inst data.opcode [v] state, .continue_) := by
    rw [computeStep, h]
  cases data with
  | store opcode x p offset | jump opcode dest | brif opcode c thenDest elseDest => cases h
  | multiAry opcode args | call opcode args f => cases h
  | _ => exact hcompute

/-- What is asserted where a block is entered: of the instructions left in the budget, of
those executed, and of the state. -/
abbrev Assertions := Block → Nat → Nat → RunState → Prop

section

variable [RustCore]

/-! ## Weakest preconditions -/

section

variable (func : Function) (limit : Nat) (A : Assertions) (Q : LoopExit → Prop)

/-- What has to hold after an instruction, where `R` has to if the next one comes after it. -/
def wpResult (inst : Inst) (R : Nat → Nat → RunState → Prop) (left steps : Nat) :
    RunState × StepResult → Prop
  | (state, .continue_) => R left steps state
  | (state, .jump target params) => A target left steps (state.bindParams func target params)
  | (state, .return_ vals) => Q ⟨state, vals, none, steps⟩
  | (state, .error err) => Q ⟨state.logHalt err inst, [], some err, steps⟩
  | (_, .panicked) => False

/-- What has to hold before the rest of a block. -/
def wp : List Inst → Nat → Nat → RunState → Prop
  | [], _, steps, state => Q ⟨state, [], some noTerminator, steps⟩
  | inst :: _, 0, steps, state =>
      Q ⟨state.logHalt (.stepLimitExceeded limit) inst, [], some (.stepLimitExceeded limit), steps⟩
  | inst :: insts, left + 1, steps, state =>
      wpResult func A Q inst (wp insts) left (steps + 1) (step func state inst (func.data inst))

/-- What is asserted of a block is enough for its instructions. -/
def Assertions.Checked : Prop :=
  ∀ b left steps state, A b left steps state →
    wp func limit A Q (func.layout.blockInsts b) left steps state

end

variable {func : Function} {limit : Nat} {A : Assertions} {Q Q' : LoopExit → Prop} {inst : Inst}
  {insts : List Inst} {left steps : Nat} {state state' : RunState}

/-! ## Rules -/

theorem wp_continue (h : step func state inst (func.data inst) = (state', .continue_)) :
    wp func limit A Q (inst :: insts) (left + 1) steps state ↔
      wp func limit A Q insts left (steps + 1) state' := by
  rw [wp, h]
  rfl

theorem wp_jump {target : Block} {params : List SimValue}
    (h : step func state inst (func.data inst) = (state', .jump target params)) :
    wp func limit A Q (inst :: insts) (left + 1) steps state ↔
      A target left (steps + 1) (state'.bindParams func target params) := by
  rw [wp, h]
  rfl

theorem wp_return {vals : List SimValue}
    (h : step func state inst (func.data inst) = (state', .return_ vals)) :
    wp func limit A Q (inst :: insts) (left + 1) steps state ↔
      Q ⟨state', vals, none, steps + 1⟩ := by
  rw [wp, h]
  rfl

theorem wp_error {err : SimError}
    (h : step func state inst (func.data inst) = (state', .error err)) :
    wp func limit A Q (inst :: insts) (left + 1) steps state ↔
      Q ⟨state'.logHalt err inst, [], some err, steps + 1⟩ := by
  rw [wp, h]
  rfl

/-- The rule for an instruction that computes a value. -/
theorem wp_compute {v : SimValue} (h : compute func state inst (func.data inst) = .ok v) :
    wp func limit A Q (inst :: insts) (left + 1) steps state ↔
      wp func limit A Q insts left (steps + 1)
        (bindResults func inst (func.data inst).opcode [v] state) :=
  wp_continue (step_of_compute h)

/-- The rule for a jump. -/
theorem wp_of_jump {opcode : Opcode} {dest : BlockCall} {params : List SimValue}
    (hdata : func.data inst = .jump opcode dest)
    (hparams : state.getAll dest.values = .ok params) :
    ∃ line, wp func limit A Q (inst :: insts) (left + 1) steps state ↔
      A dest.block left (steps + 1) ((state.log line).bindParams func dest.block params) := by
  refine ⟨?line, wp_jump ?hstep⟩
  case hstep =>
    rw [hdata, step, branchTo, hparams]

/-- The rule for a conditional branch. -/
theorem wp_of_brif {opcode : Opcode} {c : Value} {x : SimValue} {thenDest elseDest dest : BlockCall}
    {params : List SimValue} (hdata : func.data inst = .brif opcode c thenDest elseDest)
    (hc : state.registers c = some x) (hdest : dest = if x.asI64 ≠ 0 then thenDest else elseDest)
    (hparams : state.getAll dest.values = .ok params) :
    ∃ line, wp func limit A Q (inst :: insts) (left + 1) steps state ↔
      A dest.block left (steps + 1) ((state.log line).bindParams func dest.block params) := by
  refine ⟨?line, wp_jump ?hstep⟩
  case hstep =>
    rw [hdata, step, brifStep, RunState.get_eq_ok hc]
    simp only [decide_eq_true_eq, ← hdest]
    rw [branchTo, hparams]

/-- The rule for a return. -/
theorem wp_of_return {args : List Value} {vals : List SimValue}
    (hdata : func.data inst = .multiAry .return_ args) (hvals : state.getAll args = .ok vals) :
    ∃ line, wp func limit A Q (inst :: insts) (left + 1) steps state ↔
      Q ⟨state.log line, vals, none, steps + 1⟩ := by
  refine ⟨?line, wp_return ?hstep⟩
  case hstep => rw [hdata, step, returnStep, hvals]

/-- The rule of consequence. -/
theorem wp_mono (hQ : ∀ exit, Q exit → Q' exit) (h : wp func limit A Q insts left steps state) :
    wp func limit A Q' insts left steps state := by
  induction insts generalizing left steps state with
  | nil => exact hQ _ h
  | cons inst insts ih =>
      cases left with
      | zero => exact hQ _ h
      | succ left =>
          rcases hstep : step func state inst (func.data inst) with ⟨state', r⟩
          cases r with
          | continue_ => exact (wp_continue hstep).mpr (ih ((wp_continue hstep).mp h))
          | jump target params => exact (wp_jump hstep).mpr ((wp_jump hstep).mp h)
          | return_ vals => exact (wp_return hstep).mpr (hQ _ ((wp_return hstep).mp h))
          | error err => exact (wp_error hstep).mpr (hQ _ ((wp_error hstep).mp h))
          | panicked => exact absurd hstep step_ne_panicked

theorem Assertions.Checked.mono (hA : A.Checked func limit Q) (hQ : ∀ exit, Q exit → Q' exit) :
    A.Checked func limit Q' :=
  fun b left steps state h ↦ wp_mono hQ (hA b left steps state h)

/-! ## Soundness and completeness -/

/-- The exit of the loop for an outcome of the machine satisfies `Q`. -/
def ExitIs (func : Function) (limit : Nat) (Q : LoopExit → Prop)
    (o : Machine.Outcome Config Halt) : Prop :=
  ∃ exit, loopExit func limit o = some exit ∧ Q exit

/-- What is asserted of a configuration. -/
def Assertions.At (A : Assertions) (left steps : Nat) (config : Config) : Prop :=
  ∃ b state, config = ⟨.running ⟨b, 0⟩, state⟩ ∧ A b left steps state

section

variable {p : Function.Point}

omit [RustCore] in
theorem instAt_of_drop (h : (func.layout.blockInsts p.block).drop p.index = inst :: insts) :
    func.instAt p = some inst ∧ (func.layout.blockInsts p.block).drop (p.index + 1) = insts := by
  constructor
  · rw [Function.instAt, ← List.head?_drop, h]
    rfl
  · rw [← List.tail_drop, h]
    rfl

omit [RustCore] in
theorem instAt_of_drop_nil (h : (func.layout.blockInsts p.block).drop p.index = []) :
    func.instAt p = none := by
  rw [Function.instAt, ← List.head?_drop, h]
  rfl

theorem done_of_instAt_eq_none (h : func.instAt p = none) :
    (machine func).done ⟨.running p, state⟩ = some (.ended [] (some noTerminator)) := by
  show done func ⟨.running p, state⟩ = _
  simp only [done, h]

/-- The machine goes on from a state with the weakest precondition to a block whose assertion
holds, or to an end as it should be. -/
theorem leaves_of_wp (h : wp func limit A Q insts left steps state)
    (hinsts : (func.layout.blockInsts p.block).drop p.index = insts) :
    (machine func).Leaves A.At (ExitIs func limit Q) left steps ⟨.running p, state⟩ := by
  induction insts generalizing p left steps state with
  | nil =>
      exact .done (done_of_instAt_eq_none (instAt_of_drop_nil hinsts)) ⟨_, rfl, h⟩
  | cons inst insts ih =>
      obtain ⟨hinst, hrest⟩ := instAt_of_drop hinsts
      have hnone : (machine func).done ⟨.running p, state⟩ = none :=
        done_eq_none_iff.mpr ⟨p, inst, rfl, hinst⟩
      cases left with
      | zero =>
          refine .out hnone ⟨_, ?_, h⟩
          simp only [loopExit, hinst]
      | succ left =>
          have hnext : (machine func).next ⟨.running p, state⟩ = _ := next_of_instAt rfl hinst
          rcases hstep : step func state inst (func.data inst) with ⟨state', r⟩
          simp only [hstep] at hnext
          cases r with
          | continue_ =>
              refine .next hnone ?_
              rw [hnext]
              exact ih ((wp_continue hstep).mp h) hrest
          | jump target params =>
              refine .arrive hnone ?_
              rw [hnext]
              exact ⟨target, _, rfl, (wp_jump hstep).mp h⟩
          | return_ vals =>
              refine .next hnone ?_
              rw [hnext]
              exact .done rfl ⟨_, rfl, (wp_return hstep).mp h⟩
          | error err =>
              refine .next hnone ?_
              rw [hnext]
              exact .done rfl ⟨_, rfl, (wp_error hstep).mp h⟩
          | panicked => exact absurd hstep step_ne_panicked

/-- Checked assertions prove what runs end in. -/
theorem Assertions.Checked.ends (hA : A.Checked func limit Q) {b : Block}
    (h : A b left steps state) :
    (machine func).Ends (ExitIs func limit Q) left steps ⟨.running ⟨b, 0⟩, state⟩ := by
  have hinductive : (machine func).Inductive A.At (ExitIs func limit Q) := by
    rintro left steps config ⟨b, state, rfl, h⟩
    exact leaves_of_wp (hA b left steps state h) rfl
  exact hinductive.ends (hinductive left steps _ ⟨b, state, rfl, h⟩)

/-- The assertions that runs end as `Q` says. -/
def Assertions.ofRuns (func : Function) (limit : Nat) (Q : LoopExit → Prop) : Assertions :=
  fun b left steps state ↦
    (machine func).Ends (ExitIs func limit Q) left steps ⟨.running ⟨b, 0⟩, state⟩

/-- A run that ends as `Q` says starts with the weakest precondition. -/
theorem wp_of_ends
    (h : (machine func).Ends (ExitIs func limit Q) left steps ⟨.running p, state⟩)
    (hinsts : (func.layout.blockInsts p.block).drop p.index = insts) :
    wp func limit (.ofRuns func limit Q) Q insts left steps state := by
  induction insts generalizing p left steps state with
  | nil =>
      have hnone := instAt_of_drop_nil hinsts
      obtain ⟨exit, hexit, hQ⟩ := (Machine.ends_of_done (done_of_instAt_eq_none hnone)).mp h
      cases hexit
      exact hQ
  | cons inst insts ih =>
      obtain ⟨hinst, hrest⟩ := instAt_of_drop hinsts
      have hnone : (machine func).done ⟨.running p, state⟩ = none :=
        done_eq_none_iff.mpr ⟨p, inst, rfl, hinst⟩
      cases left with
      | zero =>
          obtain ⟨exit, hexit, hQ⟩ := (Machine.ends_zero hnone).mp h
          simp only [loopExit, hinst] at hexit
          cases hexit
          exact hQ
      | succ left =>
          have hends := (Machine.ends_succ hnone).mp h
          rw [next_of_instAt rfl hinst] at hends
          rcases hstep : step func state inst (func.data inst) with ⟨state', r⟩
          simp only [hstep] at hends
          cases r with
          | continue_ => exact (wp_continue hstep).mpr (ih hends hrest)
          | jump target params => exact (wp_jump hstep).mpr hends
          | return_ vals =>
              obtain ⟨exit, hexit, hQ⟩ := (Machine.ends_of_done rfl).mp hends
              cases hexit
              exact (wp_return hstep).mpr hQ
          | error err =>
              obtain ⟨exit, hexit, hQ⟩ := (Machine.ends_of_done rfl).mp hends
              cases hexit
              exact (wp_error hstep).mpr hQ
          | panicked => exact absurd hstep step_ne_panicked

theorem checked_ofRuns : (Assertions.ofRuns func limit Q).Checked func limit Q :=
  fun _ _ _ _ h ↦ wp_of_ends h rfl

end

/-- A run ends as `Q` says if the machine does. -/
theorem exec_iff_ends (sim : Simulator) (args : List SimValue) {entry : Block}
    (hentry : func.layout.entryBlock = some entry) :
    (∃ exit, sim.exec func args = some exit ∧ Q exit) ↔
      (machine func).Ends (ExitIs func sim.maxSteps Q) sim.maxSteps 0
        ⟨.running ⟨entry, 0⟩, sim.entryState func entry args⟩ := by
  rw [Simulator.exec_eq, Simulator.start, hentry]
  rfl

/-- What checked assertions prove of the run of a function. -/
theorem exec_of_checked (sim : Simulator) (args : List SimValue) {entry : Block}
    (hentry : func.layout.entryBlock = some entry) (hA : A.Checked func sim.maxSteps Q)
    (h : A entry sim.maxSteps 0 (sim.entryState func entry args)) :
    ∃ exit, sim.exec func args = some exit ∧ Q exit :=
  (exec_iff_ends sim args hentry).mpr (hA.ends h)

/-- **The method is sound and complete.**  Whatever may be said of how a run of a function
ends, of its values, registers, memory, trace, error and number of instructions, is true
exactly if there are assertions to prove it with: they can be checked a block at a time, and
hold where the run enters the function with its whole budget. -/
theorem exec_meets_iff (sim : Simulator) (func : Function) (args : List SimValue) {entry : Block}
    (hentry : func.layout.entryBlock = some entry) (Q : LoopExit → Prop) :
    (∃ exit, sim.exec func args = some exit ∧ Q exit) ↔
      ∃ A : Assertions, A.Checked func sim.maxSteps Q ∧
        A entry sim.maxSteps 0 (sim.entryState func entry args) := by
  constructor
  · intro h
    exact ⟨.ofRuns func sim.maxSteps Q, checked_ofRuns, (exec_iff_ends sim args hentry).mp h⟩
  · rintro ⟨A, hA, h⟩
    exact exec_of_checked sim args hentry hA h

end

/-! ## The compiled function -/

section

variable [RustCore] {func : Function} {entry : Block} {A : Assertions}

end

/-! ## A loop -/

namespace Countdown

/-- The number of instructions the loop takes from `x` on; from 0 it goes all the way round. -/
def total (x : BitVec 8) : Nat := 2 * (x - 1).toNat + 5

/-- What a run from `x` on ends in under the budget `limit`. -/
structure Counted (x : BitVec 8) (limit : Nat) (exit : LoopExit) : Prop where
  steps : exit.steps = min (total x) limit
  returned : total x ≤ limit → exit.error = none ∧ exit.returns = [.I8 0]
  stopped : limit < total x → exit.error = some (.stepLimitExceeded limit)

/-- The invariant of the loop, and what is known before and after it. -/
def assertions (x : BitVec 8) (limit : Nat) : Assertions
  | ⟨0⟩, left, steps, state => steps + left = limit ∧ steps = 0 ∧ state.registers ⟨0⟩ = some (.I8 x)
  | ⟨1⟩, left, steps, state =>
      steps + left = limit ∧ state.registers ⟨1⟩ = some (.I8 1) ∧
        ∃ y : BitVec 8, state.registers ⟨2⟩ = some (.I8 y) ∧ steps + total y = total x + 2
  | ⟨2⟩, left, steps, state =>
      steps + left = limit ∧ state.registers ⟨3⟩ = some (.I8 0) ∧ steps + 1 = total x
  | _, _, _, _ => False

theorem total_of_sub_eq_zero {x : BitVec 8} (h : x - 1 = 0) : total x = 5 := by
  rw [total, h]
  rfl

/-- Every time round takes two instructions. -/
theorem total_of_sub_ne_zero {x : BitVec 8} (h : x - 1 ≠ 0) : total x = total (x - 1) + 2 := by
  have hpos : (x - 1).toNat ≠ 0 := fun hzero ↦ h (BitVec.eq_of_toNat_eq hzero)
  have hsub : (x - 1 - 1).toNat = (x - 1).toNat - 1 := by bv_omega
  unfold total
  omega

section

variable [RustCore] {x y : BitVec 8} {limit left steps : Nat} {state : RunState} {A : Assertions}
  {Q : LoopExit → Prop}

omit [RustCore] in
theorem Counted.of_limit (hsteps : steps + 0 = limit) (h : steps < total x) :
    Counted x limit ⟨state, [], some (.stepLimitExceeded limit), steps⟩ := by
  constructor
  · show steps = _
    omega
  · omega
  · exact fun _ ↦ rfl

omit [RustCore] in
theorem getAll_singleton {v : Value} {a : SimValue} (h : state.registers v = some a) :
    state.getAll [v] = .ok [a] :=
  RunState.getAll_eq_ok_iff.mpr (Env.lookupAll_eq_ok_iff.mpr (congrArg (· :: []) h))

/-- Computing a value binds the result. -/
theorem wp_bind {inst : Inst} {insts : List Inst} {r : Value} {v : SimValue}
    (hresult : countdown.dfg.instResults inst = [r])
    (h : compute countdown state inst (countdown.data inst) = .ok v)
    (hwp : ∀ state' : RunState, state'.registers = Env.insert state.registers r v →
      wp countdown limit A Q insts left (steps + 1) state') :
    wp countdown limit A Q (inst :: insts) (left + 1) steps state := by
  rw [wp_compute h]
  apply hwp
  rw [registers_bindResults, hresult]
  rfl

/-- Into the loop. -/
theorem wp_enter (hx : state.registers ⟨0⟩ = some (.I8 x))
    (hloop : ∀ state' : RunState, state'.registers ⟨1⟩ = some (.I8 1) →
      state'.registers ⟨2⟩ = some (.I8 x) → A ⟨1⟩ left (steps + 2) state') :
    wp countdown limit A Q [⟨0⟩, ⟨1⟩] (left + 2) steps state := by
  refine wp_bind (r := ⟨1⟩) (v := .I8 1) rfl rfl fun state' hregisters ↦ ?_
  have hx' : state'.registers ⟨0⟩ = some (.I8 x) := by
    rw [hregisters, Env.insert_of_ne _ _ (by decide), hx]
  have hone : state'.registers ⟨1⟩ = some (.I8 1) := by
    rw [hregisters, Env.insert_same]
  have hdata : countdown.data ⟨1⟩ = .jump .jump ⟨⟨1⟩, [.value ⟨0⟩]⟩ := rfl
  obtain ⟨line, hwp⟩ := wp_of_jump hdata (getAll_singleton hx')
  rw [hwp]
  apply hloop
  · show Env.insert (state'.log line).registers ⟨2⟩ (.I8 x) ⟨1⟩ = _
    rw [Env.insert_of_ne _ _ (by decide), RunState.registers_log, hone]
  · exact Env.insert_same (state'.log line).registers ⟨2⟩ (.I8 x)

theorem compute_isub (hone : state.registers ⟨1⟩ = some (.I8 1))
    (hy : state.registers ⟨2⟩ = some (.I8 y)) :
    compute countdown state ⟨2⟩ (countdown.data ⟨2⟩) = .ok (.I8 (y - 1)) := by
  show compute countdown state ⟨2⟩ (.binary .isub ⟨2⟩ ⟨1⟩) = _
  rw [compute_binary hy hone]
  show Except.ok (SimValue.I8 ((y.signExtend 64 - (1 : BitVec 8).signExtend 64).setWidth 8)) = _
  rw [setWidth_sub (by decide), setWidth_signExtend (by decide), setWidth_signExtend (by decide)]

/-- Once round the loop, or out of it. -/
theorem wp_round (hone : state.registers ⟨1⟩ = some (.I8 1))
    (hy : state.registers ⟨2⟩ = some (.I8 y))
    (hloop : y - 1 ≠ 0 → ∀ state' : RunState, state'.registers ⟨1⟩ = some (.I8 1) →
      state'.registers ⟨2⟩ = some (.I8 (y - 1)) → A ⟨1⟩ left (steps + 2) state')
    (hend : y - 1 = 0 → ∀ state' : RunState, state'.registers ⟨3⟩ = some (.I8 0) →
      A ⟨2⟩ left (steps + 2) state') :
    wp countdown limit A Q [⟨2⟩, ⟨3⟩] (left + 2) steps state := by
  refine wp_bind (r := ⟨3⟩) rfl (compute_isub hone hy) fun state' hregisters ↦ ?_
  have hy' : state'.registers ⟨3⟩ = some (.I8 (y - 1)) := by
    rw [hregisters, Env.insert_same]
  have hone' : state'.registers ⟨1⟩ = some (.I8 1) := by
    rw [hregisters, Env.insert_of_ne _ _ (by decide), hone]
  have hdata : countdown.data ⟨3⟩ =
      .brif .brif ⟨3⟩ ⟨⟨1⟩, [.value ⟨3⟩]⟩ ⟨⟨2⟩, []⟩ := rfl
  have hchosen : (SimValue.I8 (y - 1)).asI64 ≠ 0 ↔ y - 1 ≠ 0 :=
    not_congr (signExtend_eq_zero_iff (by decide))
  by_cases hzero : y - 1 = 0
  · have hparams : state'.getAll [] = .ok [] := rfl
    obtain ⟨line, hwp⟩ := wp_of_brif hdata hy' (if_neg fun h ↦ hchosen.mp h hzero).symm hparams
    rw [hwp]
    apply hend hzero
    show (state'.log line).registers ⟨3⟩ = _
    rw [RunState.registers_log, hy', hzero]
  · obtain ⟨line, hwp⟩ := wp_of_brif hdata hy' (if_pos (hchosen.mpr hzero)).symm
      (getAll_singleton hy')
    rw [hwp]
    apply hloop hzero
    · show Env.insert (state'.log line).registers ⟨2⟩ (.I8 (y - 1)) ⟨1⟩ = _
      rw [Env.insert_of_ne _ _ (by decide), RunState.registers_log, hone']
    · exact Env.insert_same (state'.log line).registers ⟨2⟩ (.I8 (y - 1))

theorem wp_block_zero (h : assertions x limit ⟨0⟩ left steps state) :
    wp countdown limit (assertions x limit) (Counted x limit) [⟨0⟩, ⟨1⟩] left steps state := by
  obtain ⟨hlimit, rfl, hx⟩ := h
  have htotal : 5 ≤ total x := Nat.le_add_left _ _
  match left with
  | 0 => exact .of_limit hlimit (by omega)
  | 1 =>
      refine wp_bind (r := ⟨1⟩) (v := .I8 1) rfl rfl fun state' _ ↦ ?_
      exact .of_limit (by omega) (by omega)
  | left + 2 =>
      refine wp_enter hx fun state' hone hx' ↦ ?_
      exact ⟨by omega, hone, x, hx', by omega⟩

theorem wp_block_one (h : assertions x limit ⟨1⟩ left steps state) :
    wp countdown limit (assertions x limit) (Counted x limit) [⟨2⟩, ⟨3⟩] left steps state := by
  obtain ⟨hlimit, hone, y, hy, hsteps⟩ := h
  have htotal : 5 ≤ total y := Nat.le_add_left _ _
  match left with
  | 0 => exact .of_limit hlimit (by omega)
  | 1 =>
      refine wp_bind (r := ⟨3⟩) rfl (compute_isub hone hy) fun state' _ ↦ ?_
      exact .of_limit (by omega) (by omega)
  | left + 2 =>
      apply wp_round hone hy
      · intro hne state' hone' hy'
        have hround := total_of_sub_ne_zero hne
        exact ⟨by omega, hone', y - 1, hy', by omega⟩
      · intro heq state' hzero
        have hend := total_of_sub_eq_zero heq
        exact ⟨by omega, hzero, by omega⟩

theorem wp_block_two (h : assertions x limit ⟨2⟩ left steps state) :
    wp countdown limit (assertions x limit) (Counted x limit) [⟨4⟩] left steps state := by
  obtain ⟨hlimit, hzero, hsteps⟩ := h
  rcases left with _ | left
  · exact .of_limit hlimit (by omega)
  have hdata : countdown.data ⟨4⟩ = .multiAry .return_ [⟨3⟩] := rfl
  obtain ⟨line, hwp⟩ := wp_of_return hdata (getAll_singleton hzero)
  rw [hwp]
  constructor
  · show steps + 1 = _
    omega
  · exact fun _ ↦ ⟨rfl, rfl⟩
  · omega

omit [RustCore] in
theorem assertions_start (x : BitVec 8) (sim : Simulator) :
    assertions x sim.maxSteps ⟨0⟩ sim.maxSteps 0 (sim.entryState countdown ⟨0⟩ [.I8 x]) :=
  ⟨Nat.zero_add _, rfl, Env.insert_same sim.initState.registers ⟨0⟩ (.I8 x)⟩

theorem checked (x : BitVec 8) (limit : Nat) :
    (assertions x limit).Checked countdown limit (Counted x limit) := by
  rintro ⟨b⟩ left steps state h
  match b, h with
  | 0, h => exact wp_block_zero h
  | 1, h => exact wp_block_one h
  | 2, h => exact wp_block_two h
  | _ + 3, h => exact h.elim

omit [RustCore] in
theorem usesPointers : UsesPointers countdown := by
  intro b hb
  have hblocks : ∀ b ∈ [(⟨0⟩ : Block), ⟨1⟩, ⟨2⟩], ∀ inst ∈ countdown.layout.blockInsts b,
      ∀ v ∈ (countdown.data inst).addresses, countdown.dfg.valueType v = .I64 := by decide
  exact hblocks b hb

/-- The loop counts down from everywhere, and takes two instructions for every time round; under
a smaller budget it is stopped. -/
theorem exec_counted (x : BitVec 8) (sim : Simulator) :
    ∃ exit, sim.exec countdown [.I8 x] = some exit ∧ Counted x sim.maxSteps exit :=
  exec_of_checked sim [.I8 x] rfl (checked x sim.maxSteps) (assertions_start x sim)

end

end Countdown

section

local instance assertionsFmt : RustCore := .blank

/-- What a run of the loop from 3 on ends in can be proved block by block. -/
theorem exec_meets_iff_countdown :
    ∃ A : Assertions, A.Checked countdown 9 (Countdown.Counted 3 9) ∧
      A ⟨0⟩ 9 0 ((Simulator.ofBudget 9).entryState countdown ⟨0⟩ [.I8 3]) :=
  (exec_meets_iff (.ofBudget 9) countdown [.I8 3] rfl _).mp (Countdown.exec_counted 3 (.ofBudget 9))

end

end LowerIrUtils.Sim
