import LowerIrUtils.Machine.Reaching
import LowerIrUtils.Sim.ControlFlow
import LowerIrUtils.Sim.Soundness

/-!
# The equations of SSA form

In SSA form a definition is an equation between values.  In a run it is an equation between
registers, and the registers of a loop are bound anew in every iteration: the equation of
`v3 = isub v2, v1` fails as soon as `v2` is bound again.  It holds again, though, before it
can be used: at every point that the instruction strictly dominates
(`ssa_equations`).
-/

namespace LowerIrUtils.Clif

/-- The instructions whose value is a function of their operands. -/
def InstructionData.isPure : InstructionData → Bool
  | load .. | store .. | jump .. | brif .. | multiAry .. | call .. | other .. => false
  | _ => true

/-- Every value has one definition. -/
structure SingleAssignment (func : Function) : Prop where
  results : ∀ {v d d'}, v ∈ func.resultsAt d → v ∈ func.resultsAt d' → d = d'
  params : ∀ {v d d'}, v ∈ func.paramsAt d → v ∈ func.paramsAt d' → d = d'
  disjoint : ∀ {v d d'}, v ∈ func.resultsAt d → v ∉ func.paramsAt d'

/-- A well-typed instruction whose value is a function of its operands has one result. -/
theorem InstTyping.exists_of_isPure {func : Function} {data : InstructionData} {tys : List Ty}
    (h : InstTyping func data tys) (hpure : data.isPure) : ∃ ty, tys = [ty] := by
  cases h <;> first | exact ⟨_, rfl⟩ | cases hpure

theorem InstTyping.branchTyping {func : Function} {data : InstructionData} {tys : List Ty}
    {dest : BlockCall} (h : InstTyping func data tys) (hdest : dest ∈ data.destinations) :
    BranchTyping func dest := by
  cases h with
  | jump hd => exact List.mem_singleton.mp hdest ▸ hd
  | brif hc hthen helse =>
      rcases List.mem_cons.mp hdest with rfl | hdest
      · exact hthen
      · exact List.mem_singleton.mp hdest ▸ helse
  | _ => cases hdest

/-- The points on a path from the entry of a verified function are points of its layout. -/
theorem Verified.mem_blocks_of_path {func : Function} {entry : Block} (hv : Verified func entry)
    {visited : List Function.Point} {p : Function.Point}
    (h : Path func.Edge ⟨entry, 0⟩ visited p) :
    ∀ x ∈ p :: visited, x.block ∈ func.layout.blocks := by
  induction h with
  | refl =>
      intro x hx
      rw [List.mem_singleton.mp hx]
      exact hv.mem_blocks_of_entry
  | @step visited p q h hedge ih =>
      intro x hx
      rcases List.mem_cons.mp hx with rfl | hx
      · have hp := ih p List.mem_cons_self
        cases hedge with
        | fall hinst hterm => exact hp
        | branch hinst hdest =>
            exact ((hv.typed_instAt hp hinst).branchTyping hdest).target
      · exact ih x hx

end LowerIrUtils.Clif

namespace LowerIrUtils.Sim

open Clif

variable {func : Function} {entry : Block}

/-! ## Recomputing an instruction -/

theorem get_congr {state state' : RunState} {v : Value}
    (h : state'.registers v = state.registers v) : state'.get v = state.get v := by
  rw [RunState.get, RunState.get, h]

/-- The value of a pure instruction depends on its operands alone. -/
theorem compute_congr [RustCore] {state state' : RunState} {inst : Inst}
    {data : InstructionData} (hpure : data.isPure)
    (h : ∀ v ∈ data.operands, state'.registers v = state.registers v) :
    compute func state' inst data = compute func state inst data := by
  have hget {v : Value} (hv : v ∈ data.operands) := get_congr (h v hv)
  cases data with
  | binary opcode x y =>
      rw [compute, compute, hget List.mem_cons_self, hget (by simp [InstructionData.operands])]
  | unary opcode x => rw [compute, compute, hget List.mem_cons_self]
  | loadNoOffset opcode x =>
      cases opcode
      case bitcast => rw [compute, compute, hget List.mem_cons_self]
      all_goals rfl
  | intCompare opcode cond x y =>
      rw [compute, compute, hget List.mem_cons_self, hget (by simp [InstructionData.operands])]
  | floatCompare opcode cond x y =>
      rw [compute, compute, hget List.mem_cons_self, hget (by simp [InstructionData.operands])]
  | ternary opcode c x y =>
      cases opcode
      case select =>
        rw [compute, compute, hget List.mem_cons_self, hget (by simp [InstructionData.operands]),
          hget (by simp [InstructionData.operands])]
      all_goals rfl
  | unaryImm opcode imm => cases opcode <;> rfl
  | unaryIeee32 opcode imm => cases opcode <;> rfl
  | unaryIeee64 opcode imm => cases opcode <;> rfl
  | _ => cases hpure

/-- The registers satisfy the equation of the instruction at `d`, if it is a pure one. -/
def Equation [RustCore] (func : Function) (d : Function.Point) (registers : Registers) : Prop :=
  ∀ inst, func.instAt d = some inst → (func.data inst).isPure →
    ∃ r v, func.dfg.instResults inst = [r] ∧ registers r = some v ∧
      ∀ state : RunState, state.registers = registers →
        compute func state inst (func.data inst) = .ok v

/-- Passing `o` spoils the equation at `d`: an operand is defined there. -/
def Spoils (func : Function) (d o : Function.Point) : Prop :=
  ∃ inst, func.instAt d = some inst ∧
    ∃ v ∈ (func.data inst).operands, v ∈ func.resultsAt o ∨ v ∈ func.paramsAt o

/-- What spoils the equation of an instruction dominates it. -/
theorem dominates_of_spoils (hv : Verified func entry) (hssa : SingleAssignment func)
    {d o : Function.Point} (hd : d.block ∈ func.layout.blocks) (h : Spoils func d o) :
    Dominates func.Edge ⟨entry, 0⟩ o d := by
  obtain ⟨inst, hinst, v, hmem, ho⟩ := h
  rcases hv.dominated d inst hd hinst v hmem with ⟨d', hd', hdom⟩ | ⟨d', hd', hdom⟩
  · rcases ho with ho | ho
    · rw [hssa.results ho hd']
      exact hdom.dominates
    · exact absurd ho (hssa.disjoint hd')
  · rcases ho with ho | ho
    · exact absurd hd' (hssa.disjoint ho)
    · rw [hssa.params ho hd']
      exact hdom

/-! ## The equations along a run -/

section

variable [RustCore]

/-- The equations of the definitions that reach the point. -/
def EquationsAt (func : Function) (entry : Block) (p : Function.Point) (registers : Registers) :
    Prop :=
  Reaching func.Edge ⟨entry, 0⟩ (Spoils func) (Equation func) p registers

/-- An equation stays where neither its operands nor its result are bound. -/
theorem Equation.of_moves (hssa : SingleAssignment func) {d p q : Function.Point}
    {registers registers' : Registers} (hmoves : Moves func p q registers registers')
    (hne : d ≠ p) (hp : ¬ Spoils func d p) (hq : ¬ Spoils func d q)
    (h : Equation func d registers) : Equation func d registers' := by
  intro inst hinst hpure
  obtain ⟨r, x, hr, hx, hcompute⟩ := h inst hinst hpure
  have hresult : r ∈ func.resultsAt d := by
    rw [resultsAt_of_instAt hinst, hr]
    exact List.mem_singleton_self r
  refine ⟨r, x, hr, ?_, ?_⟩
  · rw [hmoves.frame r (fun h ↦ hne (hssa.results hresult h)) (hssa.disjoint hresult), hx]
  · intro state hstate
    rw [← hcompute ⟨state.memory, registers, [], false⟩ rfl]
    refine compute_congr hpure fun v hmem ↦ ?_
    rw [hstate]
    refine hmoves.frame v ?_ ?_
    · exact fun h ↦ hp ⟨inst, hinst, v, hmem, .inl h⟩
    · exact fun h ↦ hq ⟨inst, hinst, v, hmem, .inr h⟩

/-- Leaving an instruction establishes its equation. -/
theorem equation_of_next (hv : Verified func entry) (hssa : SingleAssignment func)
    {visited : List Function.Point} {config : Config} {p q : Function.Point} {inst : Inst}
    (hpath : Path func.Edge ⟨entry, 0⟩ visited p) (hp : config.status = .running p)
    (hinst : func.instAt p = some inst)
    (hq : ((machine func).next config).status = .running q) :
    Equation func p ((machine func).next config).state.registers := by
  intro inst' hinst' hpure
  obtain rfl : inst' = inst := Option.some.inj (hinst'.symm.trans hinst)
  have hblock := hv.mem_blocks_of_path hpath p List.mem_cons_self
  obtain ⟨ty, hty⟩ := (hv.typed_instAt hblock hinst).exists_of_isPure hpure
  obtain ⟨r, hr, -⟩ := exists_result hty
  have hstep : step func config.state inst' (func.data inst') =
      computeStep func config.state inst' (func.data inst') := by
    generalize func.data inst' = data at hpure
    cases data with
    | store opcode x p offset => cases hpure
    | jump opcode dest => cases hpure
    | brif opcode c thenDest elseDest => cases hpure
    | multiAry opcode args => cases hpure
    | call opcode args funcRef => cases hpure
    | _ => rfl
  rw [next_of_instAt hp hinst, hstep] at hq ⊢
  unfold computeStep at hq ⊢
  cases hcompute : compute func config.state inst' (func.data inst') with
  | error e =>
      rw [hcompute] at hq
      cases hq
  | ok x =>
      have hregs : (bindResults func inst' (func.data inst').opcode [x] config.state).registers =
          config.state.registers.insert r x := by
        rw [registers_bindResults, hr]
        rfl
      refine ⟨r, x, hr, ?_, ?_⟩
      · show (bindResults func inst' _ [x] config.state).registers r = _
        rw [hregs, Env.insert_same]
      · intro state hstate
        rw [← hcompute]
        refine compute_congr hpure fun v hmem ↦ ?_
        -- the result is no operand: it would strictly dominate itself
        have hne : v ≠ r := by
          rintro rfl
          have hresult : v ∈ func.resultsAt p := by
            rw [resultsAt_of_instAt hinst, hr]
            exact List.mem_singleton_self v
          rcases hv.dominated p inst' hblock hinst v hmem with ⟨d, hd, hdom⟩ | ⟨d, hd, -⟩
          · rw [hssa.results hd hresult] at hdom
            exact StrictlyDominates.irrefl hpath hdom
          · exact hssa.disjoint hresult hd
        have hstate' : state.registers =
            (bindResults func inst' (func.data inst').opcode [x] config.state).registers := hstate
        rw [hstate', hregs, Env.insert_of_ne _ _ hne]

theorem equationsAt_configAfter (sim : Simulator) (hv : Verified func entry)
    (hssa : SingleAssignment func) (args : List SimValue) {n : Nat} {p : Function.Point}
    (hp : (sim.configAfter func args n).status = .running p) :
    EquationsAt func entry p (sim.configAfter func args n).state.registers := by
  induction n generalizing p with
  | zero =>
      rw [show sim.configAfter func args 0 = sim.start func args from rfl, Simulator.start,
        hv.isEntry] at hp ⊢
      cases hp
      exact .refl _
  | succ n ih =>
      rw [Simulator.configAfter_succ] at hp ⊢
      cases hdone : (machine func).done (sim.configAfter func args n) with
      | some halt =>
          rw [next_of_done hdone] at hp ⊢
          exact ih hp
      | none =>
          obtain ⟨p', inst, hp', hinst⟩ := done_eq_none_iff.mp hdone
          obtain ⟨visited, hpath, hfacts⟩ := ih hp'
          have hmoves := moves_of_next hp' hinst hp
          refine Reaching.step ⟨visited, hpath, hfacts⟩ hmoves.edge ?_ ?_
          · exact fun _ ↦ equation_of_next hv hssa hpath hp' hinst hp
          · exact fun d hne hp hq h ↦ h.of_moves hssa hmoves hne hp hq

/-- The equation of an instruction holds at every point it strictly dominates. -/
theorem equation_of_strictlyDominates {sim : Simulator} (hv : Verified func entry)
    (hssa : SingleAssignment func) {args : List SimValue} {n : Nat} {d p : Function.Point}
    (hp : (sim.configAfter func args n).status = .running p)
    (hd : StrictlyDominates func.Edge ⟨entry, 0⟩ d p) :
    Equation func d (sim.configAfter func args n).state.registers := by
  have hat := equationsAt_configAfter sim hv hssa args hp
  obtain ⟨visited, hpath, -⟩ := id hat
  have hblock := hv.mem_blocks_of_path hpath d (List.mem_cons_of_mem p (hd visited hpath))
  exact hat.fact_of_strictlyDominates hd fun o ho ↦ dominates_of_spoils hv hssa hblock ho

/-- **The equations of SSA form.**  Wherever a run of a verified function is, each pure
instruction that strictly dominates the place can be computed again: its operands still give
the value its result holds.  So two of them with the same operation on the same operands hold
the same value. -/
theorem ssa_equations (sim : Simulator) (hv : Verified func entry) (hssa : SingleAssignment func)
    (args : List SimValue) {n : Nat} {p : Function.Point}
    (hp : (sim.configAfter func args n).status = .running p) {d : Function.Point} {inst : Inst}
    (hd : StrictlyDominates func.Edge ⟨entry, 0⟩ d p) (hinst : func.instAt d = some inst)
    (hpure : (func.data inst).isPure) :
    ∃ r v, func.dfg.instResults inst = [r] ∧
      (sim.configAfter func args n).state.registers r = some v ∧
      compute func (sim.configAfter func args n).state inst (func.data inst) = .ok v ∧
      ∀ d' inst' r', StrictlyDominates func.Edge ⟨entry, 0⟩ d' p → func.instAt d' = some inst' →
        func.data inst' = func.data inst → func.dfg.instResults inst' = [r'] →
        func.dfg.valueType r' = func.dfg.valueType r →
        (sim.configAfter func args n).state.registers r' = some v := by
  obtain ⟨r, v, hr, hv', hcompute⟩ := equation_of_strictlyDominates hv hssa hp hd inst hinst hpure
  refine ⟨r, v, hr, hv', hcompute _ rfl, ?_⟩
  intro d' inst' r' hd' hinst' hdata hr' hty
  obtain ⟨r'', w, hr'', hw, hcompute'⟩ :=
    equation_of_strictlyDominates hv hssa hp hd' inst' hinst' (hdata ▸ hpure)
  obtain rfl : r'' = r' := List.singleton_inj.mp (hr''.symm.trans hr')
  -- the two compute the same, since their results have one type
  have hsame : compute func (sim.configAfter func args n).state inst' (func.data inst') =
      compute func (sim.configAfter func args n).state inst (func.data inst) := by
    have hresultTy : resultTy func inst' 0 = resultTy func inst 0 := by
      rw [resultTy, resultTy, hr, hr', List.getElem?_cons_zero, List.getElem?_cons_zero,
        Option.map_some, Option.map_some, hty]
    rw [hdata]
    generalize func.data inst = data at hpure
    cases data with
    | unaryImm opcode imm =>
        cases opcode
        case iconst => rw [compute, compute, hresultTy]
        all_goals rfl
    | unary opcode x => rw [compute, compute, hresultTy]
    | loadNoOffset opcode x =>
        cases opcode
        case bitcast => rw [compute, compute, hresultTy]
        all_goals rfl
    | unaryIeee32 opcode imm => cases opcode <;> rfl
    | unaryIeee64 opcode imm => cases opcode <;> rfl
    | ternary opcode c x y => cases opcode <;> rfl
    | binary opcode x y => rfl
    | intCompare opcode cond x y => rfl
    | floatCompare opcode cond x y => rfl
    | _ => cases hpure
  rw [hw]
  rw [hcompute' _ rfl, hcompute _ rfl] at hsame
  exact congrArg some (Except.ok.inj hsame)

end

namespace Countdown

/-- The parameters of the blocks of `countdown`, by program point. -/
def params : List (Function.Point × Value) := [(⟨⟨0⟩, 0⟩, ⟨0⟩), (⟨⟨1⟩, 0⟩, ⟨2⟩)]

theorem mem_params {p : Function.Point} {v : Value} (h : v ∈ countdown.paramsAt p) :
    (p, v) ∈ params := by
  obtain ⟨⟨b⟩, i⟩ := p
  match b, i with
  | 0, 0 | 1, 0 =>
      cases List.mem_singleton.mp h
      simp [params]
  | 2, 0 | _ + 3, 0 | _, _ + 1 => cases h

theorem exists_of_mem_resultsAt {p : Function.Point} {v : Value}
    (h : v ∈ countdown.resultsAt p) :
    ∃ inst, (p, inst) ∈ insts ∧ v ∈ countdown.dfg.instResults inst := by
  cases hinst : countdown.instAt p with
  | none =>
      rw [Function.resultsAt, hinst] at h
      cases h
  | some inst => exact ⟨inst, mem_insts hinst, resultsAt_of_instAt hinst ▸ h⟩

theorem singleAssignment : SingleAssignment countdown where
  results {v d d'} hd hd' := by
    have hunique : ∀ x ∈ insts, ∀ y ∈ insts, ∀ v ∈ countdown.dfg.instResults x.2,
        v ∈ countdown.dfg.instResults y.2 → x.1 = y.1 := by decide
    obtain ⟨inst, hinst, hmem⟩ := exists_of_mem_resultsAt hd
    obtain ⟨inst', hinst', hmem'⟩ := exists_of_mem_resultsAt hd'
    exact hunique _ hinst _ hinst' v hmem hmem'
  params {v d d'} hd hd' := by
    have hunique : ∀ x ∈ params, ∀ y ∈ params, x.2 = y.2 → x.1 = y.1 := by decide
    exact hunique _ (mem_params hd) _ (mem_params hd') rfl
  disjoint {v d d'} hd hd' := by
    have hdisjoint : ∀ x ∈ insts, ∀ y ∈ params, y.2 ∉ countdown.dfg.instResults x.2 := by decide
    obtain ⟨inst, hinst, hmem⟩ := exists_of_mem_resultsAt hd
    exact hdisjoint _ hinst _ (mem_params hd') hmem

end Countdown

section

local instance equationsFmt : RustCore := .blank

/-- In the second iteration, `v3 = isub v2, v1` holds of the `v2` of that iteration. -/
theorem ssa_equations_countdown :
    ∃ r v, countdown.dfg.instResults ⟨2⟩ = [r] ∧
      ((Simulator.ofBudget 9).configAfter countdown [.I8 3] 5).state.registers r = some v ∧
      compute countdown ((Simulator.ofBudget 9).configAfter countdown [.I8 3] 5).state ⟨2⟩
        (countdown.data ⟨2⟩) = .ok v ∧
      ∀ d' inst' r', StrictlyDominates countdown.Edge ⟨⟨0⟩, 0⟩ d' ⟨⟨1⟩, 1⟩ →
        countdown.instAt d' = some inst' → countdown.data inst' = countdown.data ⟨2⟩ →
        countdown.dfg.instResults inst' = [r'] →
        countdown.dfg.valueType r' = countdown.dfg.valueType r →
        ((Simulator.ofBudget 9).configAfter countdown [.I8 3] 5).state.registers r' = some v :=
  ssa_equations (.ofBudget 9) Countdown.verified Countdown.singleAssignment [.I8 3] (n := 5) rfl
    (Countdown.strictlyDominates (d := ⟨⟨1⟩, 0⟩) (by decide)) rfl rfl

end

end LowerIrUtils.Sim
