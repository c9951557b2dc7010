import LowerIrUtils.Export.Define

/-!
# What a body builds

The function that `declare_and_build` makes of a body, against the rules of the verifier.  A
body that appends well-typed instructions has done its part: the rest depends on the values it
returns (`verified_build_iff`).
-/

namespace LowerIrUtils.Export

open Clif

/-! ## The builder of a body -/

/-- What every builder of a body satisfies, if it has started with the parameters of the
signature: its instructions make up the block, and each of them is well typed and uses what
was there before it. -/
structure Regular (sig : Signature) (bcx : TypedBuilder) : Prop where
  blockInsts : bcx.blockInsts = (List.range bcx.insts.length).map Inst.mk
  params : sig.params.length ≤ bcx.numValues
  paramTypes : (entryParams sig).map bcx.valueType = sig.params
  known : ∀ v : Value, v.index < bcx.numValues ↔
    v.index < sig.params.length ∨
      ∃ (i : Nat) (data : _) (results : _), bcx.insts[i]? = some (data, results) ∧ v ∈ results
  terminator : ∀ (i : Nat) data results, bcx.insts[i]? = some (data, results) →
    data.isTerminator = false
  uses : ∀ (i : Nat) data results, bcx.insts[i]? = some (data, results) → Uses bcx data
  inScope : ∀ (i : Nat) data results, bcx.insts[i]? = some (data, results) → ∀ v ∈ data.operands,
    v.index < sig.params.length ∨
      ∃ j < i, ∃ data' results', bcx.insts[j]? = some (data', results') ∧ v ∈ results'
  typed : ∀ (i : Nat) data results, bcx.insts[i]? = some (data, results) →
    InstTyping (bcx.func sig) data (results.map bcx.valueType)

theorem mem_entryParams {sig : Signature} {v : Value} :
    v ∈ entryParams sig ↔ v.index < sig.params.length := by
  simp only [entryParams, List.mem_map, List.mem_range]
  constructor
  · rintro ⟨i, hi, rfl⟩
    exact hi
  · intro h
    exact ⟨v.index, h, rfl⟩

theorem regular_entry (sig : Signature) : Regular sig (.entry sig) where
  blockInsts := rfl
  params := Nat.le_refl _
  paramTypes := by
    apply List.ext_getElem?
    intro i
    simp only [entryParams, TypedBuilder.entry, List.map_map, List.getElem?_map]
    rcases Nat.lt_or_ge i sig.params.length with hi | hi
    · rw [List.getElem?_range hi, Option.map_some, Function.comp_apply,
        List.getElem?_eq_getElem hi, Option.getD_some]
    · rw [List.getElem?_eq_none (by rwa [List.length_range]), List.getElem?_eq_none hi]
      rfl
  known v := by
    constructor
    · exact .inl
    · rintro (h | ⟨i, data, results, hi, -⟩)
      · exact h
      · cases hi
  terminator i data results h := by cases h
  uses i data results h := by cases h
  inScope i data results h := by cases h
  typed i data results h := by cases h

/-- The new results of an instruction. -/
def freshResults (bcx : TypedBuilder) (n : Nat) : List Value :=
  (List.range n).map fun i ↦ ⟨bcx.numValues + i⟩

theorem mem_freshResults {bcx : TypedBuilder} {n : Nat} {v : Value} :
    v ∈ freshResults bcx n ↔ bcx.numValues ≤ v.index ∧ v.index < bcx.numValues + n := by
  simp only [freshResults, List.mem_map, List.mem_range]
  constructor
  · rintro ⟨i, hi, rfl⟩
    exact ⟨Nat.le_add_right _ _, Nat.add_lt_add_left hi _⟩
  · rintro ⟨hle, hlt⟩
    obtain ⟨i, hi⟩ := Nat.exists_eq_add_of_le hle
    exact ⟨i, by omega, congrArg Value.mk hi.symm⟩

section

variable {sig : Signature} {bcx : TypedBuilder} {data : InstructionData} {tys : List Ty}

theorem insts_insert : (bcx.insert data tys).1.insts =
    bcx.insts ++ [(data, freshResults bcx tys.length)] := rfl

theorem getElem?_insts_insert {i : Nat} {entry : InstructionData × List Value}
    (h : (bcx.insert data tys).1.insts[i]? = some entry) :
    bcx.insts[i]? = some entry ∨ i = bcx.insts.length ∧
      entry = (data, freshResults bcx tys.length) := by
  rw [insts_insert] at h
  rcases Nat.lt_or_ge i bcx.insts.length with hi | hi
  · rw [List.getElem?_append_left hi] at h
    exact .inl h
  · rw [List.getElem?_append_right hi] at h
    obtain ⟨hlt, hentry⟩ := List.getElem?_eq_some_iff.mp h
    rw [List.length_singleton] at hlt
    right
    refine ⟨by omega, ?_⟩
    rw [← hentry, List.getElem_singleton]

theorem getElem?_insts_of_insert {i : Nat} {entry : InstructionData × List Value}
    (h : bcx.insts[i]? = some entry) : (bcx.insert data tys).1.insts[i]? = some entry := by
  rw [insts_insert, List.getElem?_append_left (List.getElem?_eq_some_iff.mp h).1]
  exact h

/-- The results have the types they were asked for. -/
theorem map_valueType_freshResults :
    (freshResults bcx tys.length).map (bcx.insert data tys).1.valueType = tys := by
  apply List.ext_getElem?
  intro i
  rw [List.getElem?_map, freshResults, List.getElem?_map]
  rcases Nat.lt_or_ge i tys.length with hi | hi
  · rw [List.getElem?_range hi, List.getElem?_eq_getElem hi]
    show some (if bcx.numValues + i < bcx.numValues then _
      else (tys[bcx.numValues + i - bcx.numValues]?).getD _) = _
    rw [if_neg (by omega), Nat.add_sub_cancel_left, List.getElem?_eq_getElem hi]
    rfl
  · rw [List.getElem?_eq_none (by rwa [List.length_range]), List.getElem?_eq_none hi]
    rfl

theorem Uses.insert {data' : InstructionData} (h : Uses bcx data') :
    Uses (bcx.insert data tys).1 data' where
  operands v hv := Nat.lt_of_lt_of_le (h.operands v hv) (Nat.le_add_right _ _)
  callee := h.callee

/-- A typing stays when an instruction is appended. -/
theorem typing_insert {data' : InstructionData} {tys' : List Ty} (huses : Uses bcx data')
    (hterm : data'.isTerminator = false) (h : InstTyping (bcx.func sig) data' tys') :
    InstTyping ((bcx.insert data tys).1.func sig) data' tys' := by
  have hdest : data'.destinations = [] := by
    cases data' <;> first | rfl | cases hterm
  refine h.congr hdest ?_ (fun _ _ _ _ ↦ rfl) rfl
  exact fun v hv ↦ (bcx.extends_insert data tys).valueType v (huses.operands v hv)

theorem typing_declare {data' : InstructionData} {tys' : List Ty} (callee : FuncId × Signature)
    (huses : Uses bcx data') (hterm : data'.isTerminator = false)
    (h : InstTyping (bcx.func sig) data' tys') :
    InstTyping (TypedBuilder.func { bcx with extFuncs := bcx.extFuncs ++ [callee] } sig) data'
      tys' := by
  have hdest : data'.destinations = [] := by
    cases data' <;> first | rfl | cases hterm
  refine h.congr hdest (fun _ _ ↦ rfl) ?_ rfl
  intro opcode args f hcall
  show ((bcx.extFuncs ++ [callee])[f.index]?).elim _ _ = (bcx.extFuncs[f.index]?).elim _ _
  rw [List.getElem?_append_left (huses.callee opcode args f hcall)]

theorem Regular.insert (h : Regular sig bcx) (hterm : data.isTerminator = false)
    (huses : Uses bcx data) (htyping : InstTyping (bcx.func sig) data tys) :
    Regular sig (bcx.insert data tys).1 where
  blockInsts := by
    show bcx.blockInsts ++ [_] = _
    rw [insts_insert, List.length_append, List.length_singleton, List.range_succ, List.map_append,
      h.blockInsts]
    rfl
  params := Nat.le_trans h.params (Nat.le_add_right _ _)
  paramTypes := by
    rw [← h.paramTypes]
    refine List.map_congr_left fun v hv ↦ ?_
    exact (bcx.extends_insert data tys).valueType v
      (Nat.lt_of_lt_of_le (mem_entryParams.mp hv) h.params)
  known v := by
    have hfresh : v ∈ freshResults bcx tys.length ↔ _ := mem_freshResults
    show v.index < bcx.numValues + tys.length ↔ _
    constructor
    · intro hlt
      rcases Nat.lt_or_ge v.index bcx.numValues with hv | hv
      · exact ((h.known v).mp hv).imp_right fun ⟨i, d, r, hi, hr⟩ ↦
          ⟨i, d, r, getElem?_insts_of_insert hi, hr⟩
      · exact .inr ⟨bcx.insts.length, data, _, List.getElem?_concat_length, hfresh.mpr ⟨hv, hlt⟩⟩
    · rintro (hv | ⟨i, d, r, hi, hr⟩)
      · exact Nat.lt_of_lt_of_le hv (Nat.le_trans h.params (Nat.le_add_right _ _))
      · rcases getElem?_insts_insert hi with hi | ⟨-, heq⟩
        · exact Nat.lt_of_lt_of_le ((h.known v).mpr (.inr ⟨i, d, r, hi, hr⟩))
            (Nat.le_add_right _ _)
        · cases heq
          exact (hfresh.mp hr).2
  terminator i d r hi := by
    rcases getElem?_insts_insert hi with hi | ⟨-, heq⟩
    · exact h.terminator i d r hi
    · cases heq
      exact hterm
  uses i d r hi := by
    rcases getElem?_insts_insert hi with hi | ⟨-, heq⟩
    · exact (h.uses i d r hi).insert
    · cases heq
      exact huses.insert
  inScope i d r hi v hv := by
    rcases getElem?_insts_insert hi with hi | ⟨rfl, heq⟩
    · exact (h.inScope i d r hi v hv).imp_right fun ⟨j, hj, d', r', hj', hr'⟩ ↦
        ⟨j, hj, d', r', getElem?_insts_of_insert hj', hr'⟩
    · cases heq
      exact ((h.known v).mp (huses.operands v hv)).imp_right fun ⟨j, d', r', hj, hr'⟩ ↦
        ⟨j, (List.getElem?_eq_some_iff.mp hj).1, d', r', getElem?_insts_of_insert hj, hr'⟩
  typed i d r hi := by
    rcases getElem?_insts_insert hi with hi | ⟨-, heq⟩
    · have htypes : r.map (bcx.insert data tys).1.valueType = r.map bcx.valueType :=
        List.map_congr_left fun v hv ↦ (bcx.extends_insert data tys).valueType v
          ((h.known v).mpr (.inr ⟨i, d, r, hi, hv⟩))
      rw [htypes]
      exact typing_insert (h.uses i d r hi) (h.terminator i d r hi) (h.typed i d r hi)
    · cases heq
      rw [map_valueType_freshResults]
      exact typing_insert huses hterm htyping

theorem Regular.declare (h : Regular sig bcx) (callee : FuncId × Signature) :
    Regular sig { bcx with extFuncs := bcx.extFuncs ++ [callee] } where
  blockInsts := h.blockInsts
  params := h.params
  paramTypes := h.paramTypes
  known := h.known
  terminator := h.terminator
  uses i d r hi :=
    ⟨(h.uses i d r hi).operands, fun opcode args f hcall ↦
      Nat.lt_of_lt_of_le ((h.uses i d r hi).callee opcode args f hcall)
        (List.prefix_append _ _).length_le⟩
  inScope := h.inScope
  typed i d r hi :=
    typing_declare callee (h.uses i d r hi) (h.terminator i d r hi) (h.typed i d r hi)

/-- Every builder of a body is regular. -/
theorem Builds.regular {bcx' : TypedBuilder} (hbuilds : Builds sig bcx bcx')
    (h : Regular sig bcx) : Regular sig bcx' := by
  induction hbuilds with
  | refl => exact h
  | insert hbuilds hterm huses htyping ih => exact ih.insert hterm huses htyping
  | declare hbuilds callee ih => exact ih.declare callee

end

/-! ## The function -/

/-- A builder is finished by the function that is built so far. -/
theorem finishes_func (bcx : TypedBuilder) (sig : Signature) :
    bcx.Finishes (bcx.func sig) entryBlock where
  insts i data results hi := by
    constructor
    · show (bcx.insts[i]?).elim _ Prod.fst = data
      rw [hi]
      rfl
    · show (bcx.insts[i]?).elim _ Prod.snd = results
      rw [hi]
      rfl
  valueType _ _ := rfl
  blockInsts := List.prefix_rfl

namespace Regular

variable {sig : Signature} {bcx : TypedBuilder} {returns : List Value}

theorem blockInsts_build (h : Regular sig bcx) :
    (bcx.build sig returns).layout.blockInsts entryBlock =
      (List.range bcx.insts.length).map Inst.mk ++ [⟨bcx.insts.length⟩] := by
  show bcx.blockInsts ++ [_] = _
  rw [h.blockInsts]

theorem instAt_build (h : Regular sig bcx) {j : Nat} (hj : j ≤ bcx.insts.length) :
    (bcx.build sig returns).instAt ⟨entryBlock, j⟩ = some ⟨j⟩ := by
  show ((bcx.build sig returns).layout.blockInsts entryBlock)[j]? = _
  rw [h.blockInsts_build]
  rcases Nat.lt_or_eq_of_le hj with hlt | rfl
  · rw [List.getElem?_append_left (by simpa using hlt), List.getElem?_map,
      List.getElem?_range hlt]
    rfl
  · rw [List.getElem?_append_right (by simp)]
    simp

/-- The instruction at a place, and what it is in the builder. -/
theorem exists_of_lt (sig : Signature) (returns : List Value) {j : Nat}
    (hj : j < bcx.insts.length) :
    ∃ data results, bcx.insts[j]? = some (data, results) ∧
      (bcx.build sig returns).data ⟨j⟩ = data ∧
      (bcx.build sig returns).dfg.instResults ⟨j⟩ = results := by
  have hget : (bcx.insert (.multiAry .return_ returns) []).1.insts[j]? = some bcx.insts[j] := by
    rw [insts_insert, List.getElem?_append_left hj, List.getElem?_eq_getElem hj]
  refine ⟨_, _, List.getElem?_eq_getElem hj, ?_, ?_⟩
  · show ((bcx.insert (.multiAry .return_ returns) []).1.insts[j]?).elim _ Prod.fst = _
    rw [hget]
    rfl
  · show ((bcx.insert (.multiAry .return_ returns) []).1.insts[j]?).elim _ Prod.snd = _
    rw [hget]
    rfl

theorem data_return : (bcx.build sig returns).data ⟨bcx.insts.length⟩ =
    .multiAry .return_ returns := by
  show ((bcx.insert (.multiAry .return_ returns) []).1.insts[bcx.insts.length]?).elim _ _ = _
  rw [insts_insert, List.getElem?_concat_length]
  rfl

theorem instResults_return : (bcx.build sig returns).dfg.instResults ⟨bcx.insts.length⟩ = [] := by
  show ((bcx.insert (.multiAry .return_ returns) []).1.insts[bcx.insts.length]?).elim _ _ = _
  rw [insts_insert, List.getElem?_concat_length]
  rfl

theorem valueType_build {v : Value} (hv : v.index < bcx.numValues) :
    (bcx.build sig returns).dfg.valueType v = bcx.valueType v :=
  (bcx.extends_insert (.multiAry .return_ returns) []).valueType v hv

theorem straightLine_build (h : Regular sig bcx) :
    StraightLine (bcx.build sig returns) entryBlock where
  blocks := rfl
  outside b hb := if_neg hb
  destinations := by
    intro inst hinst
    rw [h.blockInsts_build, List.mem_append, List.mem_map, List.mem_singleton] at hinst
    rcases hinst with ⟨j, hj, rfl⟩ | rfl
    · obtain ⟨data, results, hget, hdata, -⟩ :=
        exists_of_lt sig returns (List.mem_range.mp hj)
      have hterm := h.terminator j data results hget
      rw [hdata]
      cases data <;> first | rfl | cases hterm
    · rw [data_return]
      rfl

/-- What is in scope at a place: the parameters, and the results of the instructions before. -/
theorem inScope_build_iff (h : Regular sig bcx) {i : Nat} (hi : i ≤ bcx.insts.length)
    {v : Value} : InScope (bcx.build sig returns) entryBlock i v ↔
      v.index < sig.params.length ∨
        ∃ j < i, ∃ data results, bcx.insts[j]? = some (data, results) ∧ v ∈ results := by
  refine or_congr mem_entryParams (exists_congr fun j ↦ and_congr_right fun hj ↦ ?_)
  have hlt := Nat.lt_of_lt_of_le hj hi
  obtain ⟨data, results, hget, -, hresults⟩ := exists_of_lt sig returns hlt
  have hat : (bcx.build sig returns).resultsAt ⟨entryBlock, j⟩ = results := by
    rw [Function.resultsAt, h.instAt_build hlt.le]
    exact hresults
  rw [hat]
  constructor
  · exact fun hv ↦ ⟨data, results, hget, hv⟩
  · rintro ⟨data', results', hget', hv⟩
    cases hget.symm.trans hget'
    exact hv

/-- The values known at the end are those in scope there. -/
theorem inScope_return_iff (h : Regular sig bcx) {v : Value} :
    InScope (bcx.build sig returns) entryBlock bcx.insts.length v ↔ v.index < bcx.numValues := by
  rw [h.inScope_build_iff (Nat.le_refl _), h.known]
  refine or_congr_right ⟨?_, ?_⟩
  · rintro ⟨j, -, data, results, hget, hv⟩
    exact ⟨j, data, results, hget, hv⟩
  · rintro ⟨j, data, results, hget, hv⟩
    exact ⟨j, (List.getElem?_eq_some_iff.mp hget).1, data, results, hget, hv⟩

/-- The instructions of the body pass their check. -/
theorem checked_of_lt (h : Regular sig bcx) {j : Nat} (hj : j < bcx.insts.length) :
    StraightLine.Checked (bcx.build sig returns) entryBlock j ⟨j⟩ := by
  obtain ⟨data, results, hget, hdata, hresults⟩ :=
    exists_of_lt sig returns hj
  constructor
  · have htypes : results.map (bcx.build sig returns).dfg.valueType =
        results.map bcx.valueType :=
      List.map_congr_left fun v hv ↦
        valueType_build ((h.known v).mpr (.inr ⟨j, data, results, hget, hv⟩))
    rw [hdata, hresults, htypes]
    exact typing_insert (h.uses j data results hget) (h.terminator j data results hget)
      (h.typed j data results hget)
  · intro v hv
    rw [hdata] at hv
    exact (h.inScope_build_iff hj.le).mpr (h.inScope j data results hget v hv)

/-- The return passes its check if and only if it returns values that are there, of the types
of the signature. -/
theorem checked_return_iff (h : Regular sig bcx) :
    StraightLine.Checked (bcx.build sig returns) entryBlock bcx.insts.length
        ⟨bcx.insts.length⟩ ↔
      (∀ v ∈ returns, v.index < bcx.numValues) ∧ returns.map bcx.valueType = sig.returns := by
  have htypes (hknown : ∀ v ∈ returns, v.index < bcx.numValues) :
      returns.map (bcx.build sig returns).dfg.valueType = returns.map bcx.valueType :=
    List.map_congr_left fun v hv ↦ valueType_build (hknown v hv)
  constructor
  · rintro ⟨htyped, hscope⟩
    rw [data_return] at htyped hscope
    have hknown (v : Value) (hv : v ∈ returns) : v.index < bcx.numValues :=
      h.inScope_return_iff.mp (hscope v hv)
    refine ⟨hknown, ?_⟩
    rw [← htypes hknown]
    rw [instResults_return] at htyped
    generalize hdata : InstructionData.multiAry .return_ returns = data at htyped
    generalize ([] : List Value).map _ = tys at htyped
    cases htyped <;> cases hdata
    assumption
  · rintro ⟨hknown, hreturns⟩
    constructor
    · rw [data_return, instResults_return]
      exact .return_ ((htypes hknown).trans hreturns)
    · intro v hv
      rw [data_return] at hv
      exact h.inScope_return_iff.mpr (hknown v hv)

end Regular

/-- **What a body has to return.**  The function built from a body that appends well-typed
instructions is verified if and only if the values returned are known to the builder and have
the types of the returns of the signature. -/
theorem verified_build_iff {sig : Signature} {bcx : TypedBuilder} {returns : List Value}
    (h : Builds sig (.entry sig) bcx) : Verified (bcx.build sig returns) entryBlock ↔
      (∀ v ∈ returns, v.index < bcx.numValues) ∧ returns.map bcx.valueType = sig.returns := by
  have hregular := h.regular (regular_entry sig)
  have hbody : ∀ inst ∈ (List.range bcx.insts.length).map Inst.mk,
      ((bcx.build sig returns).data inst).isTerminator = false := by
    intro inst hinst
    obtain ⟨j, hj, rfl⟩ := List.mem_map.mp hinst
    obtain ⟨data, results, hget, hdata, -⟩ :=
      Regular.exists_of_lt sig returns (List.mem_range.mp hj)
    rw [hdata]
    exact hregular.terminator j data results hget
  have hparams : ((bcx.build sig returns).dfg.blockParams entryBlock).map
      (bcx.build sig returns).dfg.valueType = (bcx.build sig returns).signature.params := by
    show (entryParams sig).map _ = sig.params
    rw [← hregular.paramTypes]
    exact List.map_congr_left fun v hv ↦ Regular.valueType_build
      (Nat.lt_of_lt_of_le (mem_entryParams.mp hv) hregular.params)
  rw [hregular.straightLine_build.verified_iff hregular.blockInsts_build hbody
    (by rw [Regular.data_return]; rfl) hparams, ← hregular.checked_return_iff]
  constructor
  · intro hchecked
    refine hchecked _ _ ?_
    rw [List.getElem?_append_right (by simp)]
    simp
  · intro hreturn j inst hinst
    have hj : j < bcx.insts.length + 1 := by
      simpa using (List.getElem?_eq_some_iff.mp hinst).1
    have hmk : inst = ⟨j⟩ := by
      have hat : (bcx.build sig returns).instAt ⟨entryBlock, j⟩ = some inst := by
        rw [Function.instAt, hregular.blockInsts_build]
        exact hinst
      exact Option.some.inj (hat.symm.trans (hregular.instAt_build (Nat.le_of_lt_succ hj)))
    subst hmk
    rcases Nat.lt_succ_iff_lt_or_eq.mp hj with hlt | rfl
    · exact hregular.checked_of_lt hlt
    · exact hreturn

end LowerIrUtils.Export
