import LowerIrUtils.Clif.Verifier

/-!
# Functions of one block

In a function of one block without branches there is one path, and a point dominates exactly
the points after it.  So the rules of the verifier come down to a check from top to bottom:
each instruction is well typed and uses only parameters and results of earlier instructions
(`verified_iff`).
-/

namespace LowerIrUtils.Clif

/-- The type of an instruction without branches depends on its operands, its callee and the
returns of the function. -/
theorem InstTyping.congr {func func' : Function} {data : InstructionData} {tys : List Ty}
    (h : InstTyping func data tys) (hdest : data.destinations = [])
    (hoperands : ∀ v ∈ data.operands, func'.dfg.valueType v = func.dfg.valueType v)
    (hcallee : ∀ opcode args f, data = .call opcode args f →
      func'.dfg.extFuncs f = func.dfg.extFuncs f)
    (hreturns : func'.signature.returns = func.signature.returns) :
    InstTyping func' data tys := by
  have hmap (args : List Value) (hargs : ∀ v ∈ args, v ∈ data.operands) :
      args.map func'.dfg.valueType = args.map func.dfg.valueType :=
    List.map_congr_left fun v hv ↦ hoperands v (hargs v hv)
  have hone {v : Value} (hv : v ∈ data.operands) := hoperands v hv
  cases h with
  | iconst hty => exact .iconst hty
  | f32const => exact .f32const
  | f64const => exact .f64const
  | intBinary hop hx hy hty =>
      refine .intBinary hop ?_ ?_ hty
      · rwa [hone (by simp [InstructionData.operands])]
      · rwa [hone (by simp [InstructionData.operands])]
  | floatBinary hop hx hy hty =>
      refine .floatBinary hop ?_ ?_ hty
      · rwa [hone (by simp [InstructionData.operands])]
      · rwa [hone (by simp [InstructionData.operands])]
  | ineg hx hty => exact .ineg (by rwa [hone List.mem_cons_self]) hty
  | bnot hx hty => exact .bnot (by rwa [hone List.mem_cons_self]) hty
  | fneg hx hty => exact .fneg (by rwa [hone List.mem_cons_self]) hty
  | uextend hx hty hbits =>
      rw [← hone List.mem_cons_self] at hx hbits
      exact .uextend hx hty hbits
  | sextend hx hty hbits =>
      rw [← hone List.mem_cons_self] at hx hbits
      exact .sextend hx hty hbits
  | ireduce hx hty hbits =>
      rw [← hone List.mem_cons_self] at hx hbits
      exact .ireduce hx hty hbits
  | bitcast hx hty hbits =>
      rw [← hone List.mem_cons_self] at hx hbits
      exact .bitcast hx hty hbits
  | icmp hx hy hty =>
      refine .icmp ?_ ?_ hty
      · rwa [hone (by simp [InstructionData.operands])]
      · rwa [hone (by simp [InstructionData.operands])]
  | fcmp hx hy hty =>
      refine .fcmp ?_ ?_ hty
      · rwa [hone (by simp [InstructionData.operands])]
      · rwa [hone (by simp [InstructionData.operands])]
  | select hc hx hy hty =>
      refine .select ?_ ?_ ?_ hty
      · rwa [hone (by simp [InstructionData.operands])]
      · rwa [hone (by simp [InstructionData.operands])]
      · rwa [hone (by simp [InstructionData.operands])]
  | load hp hty => exact .load (by rwa [hone List.mem_cons_self]) hty
  | store hx hp =>
      refine .store ?_ ?_
      · rwa [hone (by simp [InstructionData.operands])]
      · rwa [hone (by simp [InstructionData.operands])]
  | call hargs hret htys =>
      rw [← hcallee _ _ _ rfl] at hargs hret
      exact .call ((hmap _ fun _ hv ↦ hv).trans hargs) hret htys
  | jump hd => cases hdest
  | brif hc hthen helse => cases hdest
  | return_ hargs => exact .return_ ((hmap _ fun _ hv ↦ hv).trans (hargs.trans hreturns.symm))

/-! ## One path -/

/-- The function has one block, which control only leaves by a return. -/
structure StraightLine (func : Function) (entry : Block) : Prop where
  blocks : func.layout.blocks = [entry]
  outside : ∀ b, b ≠ entry → func.layout.blockInsts b = []
  destinations : ∀ inst ∈ func.layout.blockInsts entry, (func.data inst).destinations = []

/-- The value is a parameter, or the result of one of the first `i` instructions. -/
def InScope (func : Function) (entry : Block) (i : Nat) (v : Value) : Prop :=
  v ∈ func.dfg.blockParams entry ∨ ∃ j < i, v ∈ func.resultsAt ⟨entry, j⟩

namespace StraightLine

variable {func : Function} {entry : Block}

theorem block_of_instAt (h : StraightLine func entry) {p : Function.Point} {inst : Inst}
    (hinst : func.instAt p = some inst) : p.block = entry := by
  by_contra hne
  rw [Function.instAt, h.outside p.block hne] at hinst
  cases hinst

theorem not_branch (h : StraightLine func entry) {p : Function.Point} {inst : Inst}
    {dest : BlockCall} (hinst : func.instAt p = some inst) :
    dest ∉ (func.data inst).destinations := by
  have hmem : inst ∈ func.layout.blockInsts entry := by
    rw [← h.block_of_instAt hinst]
    exact List.mem_of_getElem? hinst
  rw [h.destinations inst hmem]
  exact List.not_mem_nil

/-- The only path. -/
theorem path_eq (h : StraightLine func entry) {visited : List Function.Point} {p : Function.Point}
    (hpath : Path func.Edge ⟨entry, 0⟩ visited p) :
    p.block = entry ∧ ∀ d, d ∈ visited ↔ d.block = entry ∧ d.index < p.index := by
  induction hpath with
  | refl => exact ⟨rfl, fun d ↦ ⟨fun hd ↦ absurd hd List.not_mem_nil, fun hd ↦ by cases hd.2⟩⟩
  | @step visited p q hpath hedge ih =>
      obtain ⟨hp, hvisited⟩ := ih
      cases hedge with
      | branch hinst hdest => exact absurd hdest (h.not_branch hinst)
      | fall hinst hterm =>
          refine ⟨hp, fun d ↦ ?_⟩
          rw [List.mem_cons, hvisited]
          obtain ⟨b, i⟩ := d
          obtain ⟨b', j⟩ := p
          cases hp
          constructor
          · rintro (heq | ⟨hb, hi⟩)
            · cases heq
              exact ⟨rfl, Nat.lt_succ_self _⟩
            · exact ⟨hb, Nat.lt_succ_of_lt hi⟩
          · rintro ⟨rfl, hi⟩
            rcases Nat.lt_succ_iff_lt_or_eq.mp hi with hi | rfl
            · exact .inr ⟨rfl, hi⟩
            · exact .inl rfl

theorem strictlyDominates (h : StraightLine func entry) {i j : Nat} (hij : i < j) :
    StrictlyDominates func.Edge ⟨entry, 0⟩ ⟨entry, i⟩ ⟨entry, j⟩ :=
  fun _ hpath ↦ ((h.path_eq hpath).2 _).mpr ⟨rfl, hij⟩

theorem dominates_entry (h : StraightLine func entry) (j : Nat) :
    Dominates func.Edge ⟨entry, 0⟩ ⟨entry, 0⟩ ⟨entry, j⟩ := by
  rcases Nat.eq_zero_or_pos j with rfl | hj
  · exact .refl _
  · exact (h.strictlyDominates hj).dominates

/-- The points of a block that ends in its only terminator are reached. -/
theorem exists_path {body : List Inst} {last : Inst}
    (hinsts : func.layout.blockInsts entry = body ++ [last])
    (hbody : ∀ inst ∈ body, (func.data inst).isTerminator = false) {j : Nat}
    (hj : j ≤ body.length) : ∃ visited, Path func.Edge ⟨entry, 0⟩ visited ⟨entry, j⟩ := by
  induction j with
  | zero => exact ⟨[], .refl⟩
  | succ j ih =>
      obtain ⟨visited, hpath⟩ := ih (Nat.le_of_succ_le hj)
      have hinst : func.instAt ⟨entry, j⟩ = some body[j] := by
        show (func.layout.blockInsts entry)[j]? = _
        rw [hinsts, List.getElem?_append_left hj, List.getElem?_eq_getElem hj]
      exact ⟨_, .step hpath (.fall hinst (hbody _ (List.getElem_mem hj)))⟩

/-- A definition dominates a point that is reached if and only if it is in scope there. -/
theorem defDominates_iff (h : StraightLine func entry) {j : Nat} {visited : List Function.Point}
    (hpath : Path func.Edge ⟨entry, 0⟩ visited ⟨entry, j⟩) {v : Value} :
    func.DefDominates entry v ⟨entry, j⟩ ↔ InScope func entry j v := by
  have hvisited := (h.path_eq hpath).2
  constructor
  · rintro (⟨⟨b, i⟩, hd, hdom⟩ | ⟨⟨b, i⟩, hd, hdom⟩)
    · obtain ⟨hb, hi⟩ := (hvisited _).mp (hdom visited hpath)
      cases hb
      exact .inr ⟨i, hi, hd⟩
    · have hb : b = entry := by
        rcases List.mem_cons.mp (hdom visited hpath) with heq | hmem
        · cases heq
          rfl
        · exact ((hvisited _).mp hmem).1
      subst hb
      unfold Function.paramsAt at hd
      split at hd
      · exact .inl hd
      · cases hd
  · rintro (hv | ⟨i, hi, hv⟩)
    · exact .inr ⟨⟨entry, 0⟩, hv, h.dominates_entry j⟩
    · exact .inl ⟨⟨entry, i⟩, hv, h.strictlyDominates hi⟩

/-- What is to be checked of the instruction at `i`. -/
structure Checked (func : Function) (entry : Block) (i : Nat) (inst : Inst) : Prop where
  typed : InstTyping func (func.data inst) ((func.dfg.instResults inst).map func.dfg.valueType)
  inScope : ∀ v ∈ (func.data inst).operands, InScope func entry i v

/-- A function of one block is verified if and only if each instruction of the block passes
the check at its place. -/
theorem verified_iff (h : StraightLine func entry) {body : List Inst} {last : Inst}
    (hinsts : func.layout.blockInsts entry = body ++ [last])
    (hbody : ∀ inst ∈ body, (func.data inst).isTerminator = false)
    (hlast : (func.data last).isTerminator)
    (hparams : (func.dfg.blockParams entry).map func.dfg.valueType = func.signature.params) :
    Verified func entry ↔
      ∀ i inst, (body ++ [last])[i]? = some inst → Checked func entry i inst := by
  have hmem : entry ∈ func.layout.blocks := by
    rw [h.blocks]
    exact List.mem_singleton_self entry
  have hpath {i : Nat} {inst : Inst} (hi : (body ++ [last])[i]? = some inst) :
      ∃ visited, Path func.Edge ⟨entry, 0⟩ visited ⟨entry, i⟩ := by
    refine exists_path hinsts hbody ?_
    have hlt := (List.getElem?_eq_some_iff.mp hi).1
    rw [List.length_append, List.length_singleton] at hlt
    omega
  constructor
  · intro hv i inst hi
    have hinst : func.instAt ⟨entry, i⟩ = some inst := by
      rw [Function.instAt, hinsts]
      exact hi
    obtain ⟨visited, hreach⟩ := hpath hi
    refine ⟨hv.typed_instAt hmem hinst, fun v hv' ↦ ?_⟩
    exact (h.defDominates_iff hreach).mp (hv.dominated _ inst hmem hinst v hv')
  · intro hchecked
    refine
      { isEntry := by rw [Layout.entryBlock, h.blocks]; rfl
        entryParams := hparams
        terminator := ?_
        typed := ?_
        dominated := ?_ }
    · intro b hb
      rw [h.blocks, List.mem_singleton] at hb
      subst hb
      exact ⟨body, last, hinsts, hlast, hbody⟩
    · intro b hb inst hinst
      rw [h.blocks, List.mem_singleton] at hb
      subst hb
      rw [hinsts] at hinst
      obtain ⟨i, hi⟩ := List.mem_iff_getElem?.mp hinst
      exact (hchecked i inst hi).typed
    · rintro ⟨b, i⟩ inst hb hinst v hv
      rw [h.blocks] at hb
      obtain rfl : b = entry := List.mem_singleton.mp hb
      rw [Function.instAt, hinsts] at hinst
      obtain ⟨visited, hreach⟩ := hpath hinst
      exact (h.defDominates_iff hreach).mpr ((hchecked i inst hinst).inScope v hv)

end StraightLine

end LowerIrUtils.Clif
