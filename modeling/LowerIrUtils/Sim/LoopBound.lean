import LowerIrUtils.Sim.Assertions
import LowerIrUtils.Sim.ControlFlow
import Mathlib.Algebra.Order.BigOperators.Group.List

/-!
# A bound for loops

A function without loops never needs a larger budget than it has instructions.  A function
with loops has such a bound too if something is counted down in them.  A `LoopMeasure` counts
something where blocks are entered: every branch to a block of the same or a lower rank makes it
smaller, and no branch makes it larger.

A run then ends by itself within as many instructions as the function has, times one more than
the measure it starts with (`exec_of_loopMeasure`).
-/

namespace LowerIrUtils.Clif.Function

variable {func : Function} {p q : Block → Bool}

/-- The number of instructions in the layout in blocks that satisfy `p`. -/
def numInstsIn (func : Function) (p : Block → Bool) : Nat :=
  ((func.layout.blocks.filter p).map fun b ↦ (func.layout.blockInsts b).length).sum

/-- Taking in another block adds its instructions. -/
theorem numInstsIn_add_le (hlayout : func.InLayout) (hpq : ∀ b, p b → q b) {target : Block}
    (hp : ¬ p target) (hq : q target) :
    func.numInstsIn p + (func.layout.blockInsts target).length ≤ func.numInstsIn q := by
  have hmono (bs : List Block) :
      ((bs.filter p).map fun b ↦ (func.layout.blockInsts b).length).sum ≤
        ((bs.filter q).map fun b ↦ (func.layout.blockInsts b).length).sum :=
    ((bs.monotone_filter_right hpq).map _).sum_le_sum fun _ _ ↦ Nat.zero_le _
  unfold numInstsIn
  by_cases htarget : target ∈ func.layout.blocks
  · obtain ⟨pre, post, hblocks⟩ := List.append_of_mem htarget
    have hpre := hmono pre
    have hpost := hmono post
    rw [hblocks]
    simp only [List.filter_append, List.filter_cons_of_neg hp, List.filter_cons_of_pos hq,
      List.map_append, List.map_cons, List.sum_append, List.sum_cons]
    omega
  · rw [hlayout target htarget]
    exact hmono _

theorem numInstsIn_true (func : Function) : func.numInstsIn (fun _ ↦ true) = func.numInsts := by
  rw [numInstsIn, List.filter_true]
  rfl

end LowerIrUtils.Clif.Function

namespace LowerIrUtils.Sim

open Clif

section

variable [RustCore] {func : Function}

/-- Every branch the instructions take leads to a block in a state of which `R` holds.  They have
the budget to take it, and may end in any way. -/
def BranchesTo (func : Function) (R : Block → RunState → Prop) (insts : List Inst)
    (state : RunState) : Prop :=
  wp func insts.length (fun target _ _ state' ↦ R target state') (fun _ ↦ True) insts insts.length
    0 state

variable (func) in
/-- Something that is counted down in the loops of a function, in states that satisfy an
invariant. -/
structure LoopMeasure where
  Inv : Block → RunState → Prop
  measure : Block → RunState → Nat
  rank : Block → Nat
  branch : ∀ b state, Inv b state →
    BranchesTo func (fun target state' ↦ Inv target state' ∧
      (measure target state' < measure b state ∨
        measure target state' ≤ measure b state ∧ rank b < rank target))
      (func.layout.blockInsts b) state

namespace LoopMeasure

variable (m : LoopMeasure func)

/-- The number of instructions of the blocks of a higher rank. -/
def later (b : Block) : Nat := func.numInstsIn fun b' ↦ m.rank b < m.rank b'

/-- A number of instructions that is enough from a block on. -/
def enough (b : Block) (state : RunState) : Nat :=
  m.measure b state * func.numInsts + m.later b + (func.layout.blockInsts b).length

variable {m} {b target : Block} {state state' : RunState}

theorem enough_le (hlayout : func.InLayout) :
    m.enough b state ≤ (m.measure b state + 1) * func.numInsts := by
  have hadd : m.later b + (func.layout.blockInsts b).length ≤ func.numInsts := by
    rw [← func.numInstsIn_true]
    exact Function.numInstsIn_add_le hlayout (fun _ _ ↦ rfl) (by simp) rfl
  rw [enough, Nat.add_mul, Nat.one_mul]
  omega

/-- What a branch goes on with is left when the instructions of its block are paid for. -/
theorem enough_branch (hlayout : func.InLayout)
    (h : m.measure target state' < m.measure b state ∨
      m.measure target state' ≤ m.measure b state ∧ m.rank b < m.rank target) :
    m.enough target state' ≤ m.measure b state * func.numInsts + m.later b := by
  rcases h with hlt | ⟨hle, hrank⟩
  · calc m.enough target state'
        ≤ (m.measure target state' + 1) * func.numInsts := enough_le hlayout
      _ ≤ m.measure b state * func.numInsts := Nat.mul_le_mul_right _ hlt
      _ ≤ m.measure b state * func.numInsts + m.later b := Nat.le_add_right _ _
  · have hmul : m.measure target state' * func.numInsts ≤ m.measure b state * func.numInsts :=
      Nat.mul_le_mul_right _ hle
    have hlater : m.later target + (func.layout.blockInsts target).length ≤ m.later b := by
      apply Function.numInstsIn_add_le hlayout
      · intro b' hb'
        exact decide_eq_true (hrank.trans (of_decide_eq_true hb'))
      · simp
      · exact decide_eq_true hrank
    rw [enough, Nat.add_assoc]
    exact Nat.add_le_add hmul hlater

/-- The invariant holds, and what is left of the budget is enough. -/
def assertions (m : LoopMeasure func) : Assertions :=
  fun b left _ state ↦ m.Inv b state ∧ m.enough b state ≤ left

end LoopMeasure

/-- A block that branches as `R` says is left before the budget is used up, if there is one
instruction in the budget for each of its own. -/
theorem wp_of_branchesTo {limit : Nat} {R : Block → RunState → Prop} {A : Assertions}
    {insts : List Inst} {k left steps : Nat} {state : RunState}
    (h : BranchesTo func R insts state) (hleft : k + insts.length ≤ left)
    (hA : ∀ target left' steps' state', R target state' → k ≤ left' →
      A target left' steps' state') :
    wp func limit A (fun exit ↦ ¬ exit.HitLimit) insts left steps state := by
  -- the budget of `BranchesTo` is used up in step with the other
  suffices hwp : ∀ limit' steps', wp func limit' (fun target _ _ state' ↦ R target state')
      (fun _ ↦ True) insts insts.length steps' state →
      wp func limit A (fun exit ↦ ¬ exit.HitLimit) insts left steps state from hwp _ _ h
  clear h
  intro limit' steps' h
  induction insts generalizing left steps steps' state with
  | nil =>
      rintro ⟨_, hlimit⟩
      cases hlimit
  | cons inst insts ih =>
      cases left with
      | zero => exact absurd hleft (Nat.not_succ_le_zero _)
      | succ left =>
          have hrest : k + insts.length ≤ left := Nat.le_of_succ_le_succ hleft
          rw [List.length_cons] at h
          rcases hstep : step func state inst (func.data inst) with ⟨state', r⟩
          cases r with
          | continue_ =>
              rw [wp_continue hstep] at h ⊢
              exact ih hrest _ h
          | jump target params =>
              rw [wp_jump hstep] at h ⊢
              exact hA _ _ _ _ h ((Nat.le_add_right _ _).trans hrest)
          | return_ vals =>
              refine (wp_return hstep).mpr ?_
              rintro ⟨_, hlimit⟩
              cases hlimit
          | error err =>
              refine (wp_error hstep).mpr ?_
              rintro ⟨_, hlimit⟩
              cases hlimit
              exact faultOf_of_step hstep
          | panicked => exact absurd hstep step_ne_panicked

theorem LoopMeasure.checked (m : LoopMeasure func) (hlayout : func.InLayout) (limit : Nat) :
    m.assertions.Checked func limit (fun exit ↦ ¬ exit.HitLimit) := by
  rintro b left steps state ⟨hinv, henough⟩
  apply wp_of_branchesTo (m.branch b state hinv) henough
  rintro target left' steps' state' ⟨hinv', hmeasure⟩ hleft
  exact ⟨hinv', (enough_branch hlayout hmeasure).trans hleft⟩

/-- **Loops that count down finish.**  If something is counted down in the loops of a function,
verified or not, a run ends by itself within as many instructions as the function has for each
time it can be counted down, and once more.  So every budget from there on gives the
same run. -/
theorem exec_of_loopMeasure (sim : Simulator) (m : LoopMeasure func) (hlayout : func.InLayout)
    (args : List SimValue) {entry : Block} (hentry : func.layout.entryBlock = some entry)
    (hinv : m.Inv entry (sim.entryState func entry args)) :
    let bound := (m.measure entry (sim.entryState func entry args) + 1) * func.numInsts
    ∃ exit, exit.steps ≤ bound ∧ ¬ exit.HitLimit ∧
      ∀ n, bound ≤ n → (sim.withBudget n).exec func args = some exit := by
  intro bound
  obtain ⟨exit, hexec, hlimit⟩ := exec_of_checked (sim.withBudget bound) args hentry
    (m.checked hlayout bound) ⟨hinv, LoopMeasure.enough_le hlayout⟩
  rcases exec_spec hexec with hended | hstopped
  · refine ⟨exit, hended.steps, hlimit, fun n hn ↦ ?_⟩
    rw [exec_of_haltsAt hended.halts (hended.steps.trans hn), ← hended.state]
  · exact absurd ⟨bound, hstopped.error⟩ hlimit

end

namespace Countdown

/-- How often the loop of `countdown` is still gone round after this time. -/
def rounds : Option SimValue → Nat
  | some (.I8 x) => (x - 1).toNat
  | _ => 0

theorem rounds_lt {x : BitVec 8} (h : x - 1 ≠ 0) :
    rounds (some (.I8 (x - 1))) < rounds (some (.I8 x)) := by
  have htotal := total_of_sub_ne_zero h
  unfold total at htotal
  show (x - 1 - 1).toNat < (x - 1).toNat
  omega

/-- The loop of `countdown` counts down its parameter. -/
def loopMeasure [RustCore] : LoopMeasure countdown where
  Inv
    | ⟨0⟩, state => ∃ x, state.registers ⟨0⟩ = some (.I8 x)
    | ⟨1⟩, state => state.registers ⟨1⟩ = some (.I8 1) ∧ ∃ x, state.registers ⟨2⟩ = some (.I8 x)
    | ⟨2⟩, state => state.registers ⟨3⟩ = some (.I8 0)
    | _, _ => True
  measure
    | ⟨0⟩, state => rounds (state.registers ⟨0⟩)
    | ⟨1⟩, state => rounds (state.registers ⟨2⟩)
    | _, _ => 0
  rank b := b.index
  branch := by
    rintro ⟨b⟩ state hinv
    match b, hinv with
    | 0, ⟨x, hx⟩ =>
        apply wp_enter hx
        intro state' hone hx'
        refine ⟨⟨hone, x, hx'⟩, .inr ⟨?_, Nat.zero_lt_one⟩⟩
        show rounds (state'.registers ⟨2⟩) ≤ rounds (state.registers ⟨0⟩)
        rw [hx', hx]
    | 1, ⟨hone, x, hx⟩ =>
        apply wp_round hone hx
        · intro hne state' hone' hx'
          refine ⟨⟨hone', x - 1, hx'⟩, .inl ?_⟩
          show rounds (state'.registers ⟨2⟩) < rounds (state.registers ⟨2⟩)
          rw [hx', hx]
          exact rounds_lt hne
        · intro _ state' hzero
          exact ⟨hzero, .inr ⟨Nat.zero_le _, Nat.lt_succ_self 1⟩⟩
    | 2, hzero =>
        have hdata : countdown.data ⟨4⟩ = .multiAry .return_ [⟨3⟩] := rfl
        obtain ⟨line, hwp⟩ := wp_of_return hdata (getAll_singleton hzero)
        exact hwp.mpr trivial
    | _ + 3, _ => trivial

end Countdown

section

local instance loopBoundFmt : RustCore := .blank

/-- The loop is left within 15 instructions when it is started at 3. -/
theorem exec_of_loopMeasure_countdown :
    ∃ exit, exit.steps ≤ 15 ∧ ¬ exit.HitLimit ∧
      ∀ n, 15 ≤ n → ((Simulator.ofBudget 0).withBudget n).exec countdown [.I8 3] = some exit :=
  exec_of_loopMeasure (.ofBudget 0) Countdown.loopMeasure (Function.inLayout_ofTables _ _ _ _ _ _)
    [.I8 3] rfl ⟨3, rfl⟩

end

end LowerIrUtils.Sim
