import LowerIrUtils.Clif.Verifier
import LowerIrUtils.Machine.Reaching
import LowerIrUtils.Sim.StepBudget

/-!
# The path of a run

A run follows the edges of the control-flow graph, whether the function was verified or
not.  An instruction that goes on to the next point binds only the results of the point it
leaves and the parameters of the point it enters.
-/

namespace LowerIrUtils.Sim

open Clif

variable [RustCore] {func : Function}

/-- A terminator computes nothing. -/
theorem isTerminator_of_compute {state : RunState} {inst : Inst} {data : InstructionData}
    {v : SimValue} (h : compute func state inst data = .ok v) : data.isTerminator = false := by
  cases data with
  | jump opcode dest => cases h
  | brif opcode c thenDest elseDest => cases h
  | multiAry opcode args => cases h
  | _ => rfl

/-- Moving from `p` to `q` changes the results of `p` and the parameters of `q` only. -/
structure Moves (func : Function) (p q : Function.Point) (registers registers' : Registers) :
    Prop where
  edge : func.Edge p q
  frame : ∀ v, v ∉ func.resultsAt p → v ∉ func.paramsAt q → registers' v = registers v

/-- An instruction that is gone on from moves along an edge. -/
theorem moves_of_next {config : Config} {p q : Function.Point} {inst : Inst}
    (hp : config.status = .running p) (hinst : func.instAt p = some inst)
    (hq : ((machine func).next config).status = .running q) :
    Moves func p q config.state.registers ((machine func).next config).state.registers := by
  have hresults : func.resultsAt p = func.dfg.instResults inst := by
    rw [Function.resultsAt, hinst]
    rfl
  rw [next_of_instAt hp hinst] at hq ⊢
  rcases hstep : step func config.state inst (func.data inst) with ⟨state', r⟩
  have hframe (v : Value) (hv : v ∉ func.resultsAt p) :
      state'.registers v = config.state.registers v := by
    rw [hresults] at hv
    have h : (step func config.state inst (func.data inst)).1.registers v =
        config.state.registers v := registers_step_of_not_mem hv
    rwa [hstep] at h
  have heffect := effect_of_step hstep
  rw [hstep] at hq
  generalize hdata : func.data inst = data at heffect
  cases r with
  | continue_ =>
      cases hq
      refine ⟨.fall hinst ?_, fun v hv _ ↦ hframe v hv⟩
      rw [hdata]
      generalize hr : StepResult.continue_ = r at heffect
      cases heffect with
      | value h => exact isTerminator_of_compute h
      | store hx hp hle => rfl
      | call hargs hz => rfl
      | _ => cases hr
  | jump target params =>
      cases hq
      obtain ⟨dest, hdest, rfl⟩ : ∃ dest ∈ data.destinations, dest.block = target := by
        generalize hr : StepResult.jump target params = r at heffect
        cases heffect with
        | branch hdest h =>
            cases hr
            exact ⟨_, hdest, rfl⟩
        | call hargs hz =>
            rename_i e
            cases e <;> cases hr
        | _ => cases hr
      refine ⟨.branch hinst (hdata ▸ hdest), ?_⟩
      intro v hv hparams
      have hparams' : v ∉ func.dfg.blockParams dest.block := hparams
      show Env.insertAll _ params state'.registers v = _
      rw [Env.insertAll_of_not_mem hparams', hframe v hv]
  | return_ vals => cases hq
  | error e => cases hq
  | panicked => cases hq

/-- The points a run has left, latest first. -/
theorem exists_path (sim : Simulator) {args : List SimValue} {entry : Block}
    (hentry : func.layout.entryBlock = some entry) {n : Nat} {p : Function.Point} {inst : Inst}
    (hp : (sim.configAfter func args n).status = .running p) (hinst : func.instAt p = some inst) :
    ∃ visited, visited.length = n ∧ Path func.Edge ⟨entry, 0⟩ visited p ∧
      (∀ x ∈ p :: visited, ∃ inst, func.instAt x = some inst) ∧
      ∀ i < n, ∃ x ∈ visited, (sim.configAfter func args i).status = .running x := by
  induction n generalizing p inst with
  | zero =>
      rw [show sim.configAfter func args 0 = sim.start func args from rfl, Simulator.start,
        hentry] at hp
      cases hp
      refine ⟨[], rfl, .refl, ?_, fun i hi ↦ absurd hi (Nat.not_lt_zero i)⟩
      exact fun x hx ↦ ⟨inst, List.mem_singleton.mp hx ▸ hinst⟩
  | succ n ih =>
      have hrun := Simulator.running_of_instAt hp hinst
      obtain ⟨p', inst', hp', hinst'⟩ := done_eq_none_iff.mp (hrun n (by omega))
      rw [Simulator.configAfter_succ] at hp
      obtain ⟨visited, hlength, hpath, hinsts, hvisited⟩ := ih hp' hinst'
      have hmoves := moves_of_next hp' hinst' hp
      refine ⟨p' :: visited, congrArg Nat.succ hlength, .step hpath hmoves.edge, ?_, ?_⟩
      · intro x hx
        rcases List.mem_cons.mp hx with rfl | hx
        · exact ⟨inst, hinst⟩
        · exact hinsts x hx
      · intro i hi
        rcases Nat.lt_succ_iff_lt_or_eq.mp hi with hi | rfl
        · obtain ⟨x, hx, hstatus⟩ := hvisited i hi
          exact ⟨x, List.mem_cons_of_mem p' hx, hstatus⟩
        · exact ⟨p', List.mem_cons_self, hp'⟩

/-! ## Functions without loops -/

end LowerIrUtils.Sim

namespace LowerIrUtils.Clif.Function

/-- No path from the entry comes back to a point it has left. -/
def LoopFree (func : Function) : Prop :=
  ∀ entry, func.layout.entryBlock = some entry →
    ∀ visited p, Path func.Edge ⟨entry, 0⟩ visited p → p ∉ visited

/-- Blocks outside the layout are empty. -/
def InLayout (func : Function) : Prop :=
  ∀ b, b ∉ func.layout.blocks → func.layout.blockInsts b = []

/-- The points of a function. -/
def points (func : Function) : List Point :=
  func.layout.blocks.flatMap fun b ↦ (List.range (func.layout.blockInsts b).length).map (Point.mk b)

/-- The number of instructions in the layout of a function. -/
def numInsts (func : Function) : Nat :=
  (func.layout.blocks.map fun b ↦ (func.layout.blockInsts b).length).sum

theorem length_points (func : Function) : func.points.length = func.numInsts := by
  simp only [points, numInsts, List.length_flatMap, List.length_map, List.length_range]

theorem mem_points {func : Function} (hlayout : func.InLayout) {p : Point} {inst : Inst}
    (hinst : func.instAt p = some inst) : p ∈ func.points := by
  have hlt : p.index < (func.layout.blockInsts p.block).length :=
    (List.getElem?_eq_some_iff.mp hinst).1
  have hblock : p.block ∈ func.layout.blocks := by
    by_contra h
    rw [hlayout p.block h] at hlt
    exact Nat.not_lt_zero _ hlt
  exact List.mem_flatMap.mpr ⟨p.block, hblock, List.mem_map.mpr
    ⟨p.index, List.mem_range.mpr hlt, rfl⟩⟩

/-- A function whose edges increase a rank has no loops. -/
theorem loopFree_of_rank {func : Function} {rank : Point → Nat}
    (hrank : ∀ p q, func.Edge p q → rank p < rank q) : func.LoopFree :=
  fun _ _ _ _ h ↦ h.not_mem_of_rank hrank

theorem inLayout_ofTables (signature : Signature) (insts : List (InstructionData × List Value))
    (blocks : List (List Value × List Inst)) (types : List Ty) (aliases : List (Value × Value))
    (extFuncs : List ExtFuncData) :
    (ofTables signature insts blocks types aliases extFuncs).InLayout := by
  intro b hb
  have hge : blocks.length ≤ b.index := by
    by_contra h
    exact hb (List.mem_map.mpr ⟨b.index, List.mem_range.mpr (Nat.lt_of_not_le h), rfl⟩)
  show (blocks[b.index]?).elim [] Prod.snd = []
  rw [List.getElem?_eq_none hge]
  rfl

end LowerIrUtils.Clif.Function

namespace LowerIrUtils.Sim

open Clif

section

variable [RustCore] {func : Function}

/-- A run of a function without loops that goes on after `n` instructions has executed
instructions at `n` places, and is at another one. -/
theorem lt_numInsts_of_loopFree (sim : Simulator) {args : List SimValue}
    (hlayout : func.InLayout) (hfree : func.LoopFree) {n : Nat} {p : Function.Point} {inst : Inst}
    (hp : (sim.configAfter func args n).status = .running p)
    (hinst : func.instAt p = some inst) : n < func.numInsts := by
  obtain ⟨entry, hentry⟩ : ∃ entry, func.layout.entryBlock = some entry := by
    cases hentry : func.layout.entryBlock with
    | some entry => exact ⟨entry, rfl⟩
    | none =>
        have hrun := Simulator.running_of_instAt hp hinst 0 (Nat.succ_pos n)
        obtain ⟨q, -, hq, -⟩ := done_eq_none_iff.mp hrun
        rw [Machine.after_zero, Simulator.start, hentry] at hq
        cases hq
  obtain ⟨visited, rfl, hpath, hinsts, -⟩ := exists_path sim hentry hp hinst
  have hnodup := hpath.nodup (hfree entry hentry)
  rw [← func.length_points]
  refine hnodup.length_le_of_subset fun x hx ↦ ?_
  obtain ⟨inst', hinst'⟩ := hinsts x hx
  exact Function.mem_points hlayout hinst'

/-- **Loop-free functions finish.**  A run of a function without loops executes no
instruction twice, and ends by itself within as many instructions as the function has.  So
every budget from there on gives the same run. -/
theorem exec_of_loopFree (sim : Simulator) (hlayout : func.InLayout) (hfree : func.LoopFree)
    (args : List SimValue) :
    (∃ exit, exit.steps ≤ func.numInsts ∧ ¬ exit.HitLimit ∧
      ∀ n, func.numInsts ≤ n → (sim.withBudget n).exec func args = some exit) ∧
    ∀ i j p inst, i < j → (sim.configAfter func args i).status = .running p →
      func.instAt p = some inst → (sim.configAfter func args j).status ≠ .running p := by
  constructor
  · rcases Machine.haltsAt_or_running (M := machine func) func.numInsts (sim.start func args) with
      ⟨k, hk, h, hhalts⟩ | hrun
    · obtain ⟨returns, error, rfl, hown⟩ := exists_ended_of_haltsAt hhalts
      refine ⟨⟨_, returns, error, k⟩, hk, ?_, fun n hn ↦ exec_of_haltsAt hhalts (hk.trans hn)⟩
      rintro ⟨limit, hlimit⟩
      cases hown _ hlimit
    · obtain ⟨p, inst, hp, hinst⟩ := done_eq_none_iff.mp (Machine.running_succ'.mp hrun).2
      exact absurd (lt_numInsts_of_loopFree sim hlayout hfree hp hinst) (Nat.lt_irrefl _)
  · intro i j p inst hij hi hinst hj
    obtain ⟨q, -, hq, -⟩ := done_eq_none_iff.mp
      (Simulator.running_of_instAt hj hinst 0 (Nat.succ_pos j))
    cases hentry : func.layout.entryBlock with
    | none =>
        rw [Machine.after_zero, Simulator.start, hentry] at hq
        cases hq
    | some entry =>
        obtain ⟨visited, -, hpath, -, hvisited⟩ := exists_path sim hentry hj hinst
        obtain ⟨x, hx, hstatus⟩ := hvisited i hij
        obtain rfl : p = x := Status.running.inj (hi.symm.trans hstatus)
        exact hfree entry hentry visited p hpath hx

end

/-- The absolute value:
```
block0(v0: i32):  v1 = ineg v0;   v2 = icmp slt v0, v1;   brif v2, block1(v1), block1(v0)
block1(v3: i32):  return v3
``` -/
def absolute : Function :=
  .ofTables ⟨[.I32], [.I32]⟩
    [(.unary .ineg ⟨0⟩, [⟨1⟩]), (.intCompare .icmp .signedLessThan ⟨0⟩ ⟨1⟩, [⟨2⟩]),
      (.brif .brif ⟨2⟩ ⟨⟨1⟩, [.value ⟨1⟩]⟩ ⟨⟨1⟩, [.value ⟨0⟩]⟩, []),
      (.multiAry .return_ [⟨3⟩], [])]
    [([⟨0⟩], [⟨0⟩, ⟨1⟩, ⟨2⟩]), ([⟨3⟩], [⟨3⟩])]
    [.I32, .I32, .I8, .I32] [] []

namespace Absolute

/-- The instructions of `absolute`, by program point. -/
def insts : List (Function.Point × Inst) :=
  [(⟨⟨0⟩, 0⟩, ⟨0⟩), (⟨⟨0⟩, 1⟩, ⟨1⟩), (⟨⟨0⟩, 2⟩, ⟨2⟩), (⟨⟨1⟩, 0⟩, ⟨3⟩)]

theorem mem_insts {p : Function.Point} {inst : Inst} (h : absolute.instAt p = some inst) :
    (p, inst) ∈ insts := by
  obtain ⟨⟨b⟩, i⟩ := p
  match b, i with
  | 0, 0 | 0, 1 | 0, 2 | 1, 0 => cases h; simp [insts]
  | 0, _ + 3 | 1, _ + 1 | _ + 2, _ => cases h

theorem loopFree : absolute.LoopFree := by
  have hbranch : ∀ x ∈ insts, ∀ dest ∈ (absolute.data x.2).destinations,
      3 * x.1.block.index + x.1.index < 3 * dest.block.index := by decide
  apply @Function.loopFree_of_rank _ fun p ↦ 3 * p.block.index + p.index
  intro p q h
  cases h with
  | fall hinst hterm => exact Nat.lt_succ_self _
  | branch hinst hdest => exact hbranch _ (mem_insts hinst) _ hdest

end Absolute

section

local instance controlFlowFmt : RustCore := .blank

/-- The absolute value of -7 is known after at most 4 instructions. -/
theorem exec_of_loopFree_absolute :
    (∃ exit, exit.steps ≤ 4 ∧ ¬ exit.HitLimit ∧
      ∀ n, 4 ≤ n → ((Simulator.ofBudget 0).withBudget n).exec absolute [.I32 (-7)] = some exit) ∧
    ∀ i j p inst, i < j →
      ((Simulator.ofBudget 0).configAfter absolute [.I32 (-7)] i).status = .running p →
      absolute.instAt p = some inst →
      ((Simulator.ofBudget 0).configAfter absolute [.I32 (-7)] j).status ≠ .running p :=
  exec_of_loopFree (.ofBudget 0) (Function.inLayout_ofTables _ _ _ _ _ _) Absolute.loopFree
    [.I32 (-7)]

end

end LowerIrUtils.Sim
