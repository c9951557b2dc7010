import LowerIrUtils.Export.CallAgreement
import LowerIrUtils.Export.CallResult
import LowerIrUtils.Export.Linking
import LowerIrUtils.Sim.ReferenceRun

/-!
# Wrappers of exported functions

The use of the crate its documentation begins with: an exported function is declared in a
module, and a function is defined whose body calls it through its helper `call` and returns
what that gives.  Where the helper does not panic such a wrapper is verified, and it does what
the exported function does: whatever the host makes of the call, the arguments it gets are the
lowered ones, and what it returns is returned (`wrapper_calls`).
-/

namespace LowerIrUtils.Export

open Clif Sim Reference

/-! ## Emitting builds -/

theorem instTyping_of_denotes {data : InstructionData} {x : SimValue} (h : Denotes data x)
    (func : Function) : InstTyping func data [x.ty] := by
  cases h with
  | iconst h =>
      refine .iconst ?_
      cases x with
      | F32 x => cases h
      | F64 x => cases h
      | _ => rfl
  | f32const x => exact .f32const
  | f64const x => exact .f64const

namespace Emits

variable {sig : Signature} {bcx bcx' : TypedBuilder} {lanes : List Lane} {vs : List Value}

theorem extFuncs (h : Emits bcx lanes bcx' vs) : bcx'.extFuncs = bcx.extFuncs := by
  induction h with
  | nil => rfl
  | value h ih => exact ih
  | const hdata h ih => exact ih

theorem builds (h : Emits bcx lanes bcx' vs) : Builds sig bcx bcx' := by
  induction h with
  | nil => exact .refl
  | value h ih => exact ih
  | const hdata h ih =>
      refine .trans (.insert .refl ?_ ?_ (instTyping_of_denotes hdata _)) ih
      · cases hdata <;> rfl
      · constructor
        · cases hdata <;> exact fun v hv ↦ absurd hv List.not_mem_nil
        · cases hdata <;> nofun

theorem known (h : Emits bcx lanes bcx' vs) (hknown : ∀ lane ∈ lanes, lane.KnownTo bcx) :
    ∀ v ∈ vs, v.index < bcx'.numValues := by
  induction h with
  | nil => exact fun v hv ↦ absurd hv List.not_mem_nil
  | value h ih =>
      rintro v (_ | ⟨_, hv⟩)
      · exact Nat.lt_of_lt_of_le (hknown _ List.mem_cons_self) h.grows.numValues
      · exact ih (fun lane hlane ↦ hknown lane (List.mem_cons_of_mem _ hlane)) v hv
  | @const bcx bcx' data x lanes vs hdata h ih =>
      have hone : bcx.Extends (bcx.insertOne data x.ty).1 := TypedBuilder.extends_insert _ _ _
      rintro v (_ | ⟨_, hv⟩)
      · exact Nat.lt_of_lt_of_le (Nat.lt_succ_self _) h.grows.numValues
      · refine ih (fun lane hlane ↦ ?_) v hv
        exact (hknown lane (List.mem_cons_of_mem _ hlane)).of_extends hone

/-- Constants access no memory. -/
theorem addresses (h : Emits bcx lanes bcx' vs) (hbcx : ∀ e ∈ bcx.insts, e.1.addresses = []) :
    ∀ e ∈ bcx'.insts, e.1.addresses = [] := by
  induction h with
  | nil => exact hbcx
  | value h ih => exact ih hbcx
  | const hdata h ih =>
      refine ih fun e he ↦ ?_
      rcases List.mem_append.mp he with he | he
      · exact hbcx e he
      · cases List.mem_singleton.mp he
        cases hdata <;> rfl

end Emits

/-! ## Running what was emitted -/

/-- The bits of a lane: those of the value passed, or of the constant. -/
def Lane.bits (env : BitEnv) : Lane → Option BitVal
  | value v => env v
  | const x => some x.toBits

section

variable {func : Function} {b : Block} (host : Host)

/-- The next instruction of the block is the constant, and it binds its result. -/
theorem full_next_of_denotes {bcx : TypedBuilder} {data : InstructionData} {x : SimValue}
    (h : Denotes data x) (hfin : (bcx.insertOne data x.ty).1.Finishes func b) (env : BitEnv)
    (mem : Mem) :
    (Full.machine func host).next (.running ⟨b, bcx.blockInsts.length⟩ env mem) =
      .running ⟨b, bcx.blockInsts.length + 1⟩
        (env.insert (bcx.insertOne data x.ty).2 x.toBits) mem := by
  have hresults := hfin.instResults_insertOne
  have hty := hfin.valueType_insertOne
  rw [Full.next_of_instAt _ hfin.instAt_insert, hfin.data_insert]
  cases h with
  | iconst h =>
      simp only [Full.exec, InstructionData.opcode, Opcode.isReference, if_true, Reference.exec,
        Reference.assign, hresults, Reference.eval, Full.Config.ofInteger]
      rw [hty, SimValue.toBits_ofI64 h]
  | f32const x =>
      simp only [Full.exec, InstructionData.opcode, Opcode.isReference, Bool.false_eq_true,
        if_false, Full.assign, hresults, Full.eval]
      rfl
  | f64const x =>
      simp only [Full.exec, InstructionData.opcode, Opcode.isReference, Bool.false_eq_true,
        if_false, Full.assign, hresults, Full.eval]
      rfl

/-- The reference machine comes from the first of the constants to the instruction after the
last one, and there every value emitted holds what its lane does. -/
theorem full_after_of_emits {bcx bcx' : TypedBuilder} {lanes : List Lane} {vs : List Value}
    (h : Emits bcx lanes bcx' vs) (hfin : bcx'.Finishes func b) (env : BitEnv) (mem : Mem) :
    ∃ k env', bcx.blockInsts.length + k = bcx'.blockInsts.length ∧
      (Full.machine func host).after k (.running ⟨b, bcx.blockInsts.length⟩ env mem) =
        .running ⟨b, bcx'.blockInsts.length⟩ env' mem ∧
      Matches bcx env' (Lane.bits env) lanes vs ∧
      ∀ v : Value, v.index < bcx.numValues → env' v = env v := by
  induction h generalizing env with
  | nil => exact ⟨0, env, rfl, rfl, .nil, fun _ _ ↦ rfl⟩
  | value h ih =>
      obtain ⟨k, env', hk, hafter, hread, hframe⟩ := ih hfin env
      exact ⟨k, env', hk, hafter, .cons (fun hknown ↦ hframe _ hknown) hread, hframe⟩
  | @const bcx bcx' data x lanes vs hdata h ih =>
      have hone : bcx.Extends (bcx.insertOne data x.ty).1 := TypedBuilder.extends_insert _ _ _
      have hnext := full_next_of_denotes host hdata (hfin.of_extends h.grows) env mem
      obtain ⟨k, env', hk, hafter, hread, hframe⟩ :=
        ih hfin (env.insert (bcx.insertOne data x.ty).2 x.toBits)
      have hlength : (bcx.insertOne data x.ty).1.blockInsts.length = bcx.blockInsts.length + 1 := by
        rw [TypedBuilder.blockInsts_insertOne, List.length_append, List.length_singleton]
      -- the fresh result is none of the values of the builder
      have hold (v : Value) (hv : v.index < bcx.numValues) :
          env.insert (bcx.insertOne data x.ty).2 x.toBits v = env v := by
        refine Env.insert_of_ne _ _ ?_
        rintro rfl
        exact Nat.lt_irrefl _ hv
      rw [hlength] at hk hafter
      refine ⟨k + 1, env', by omega, ?_, .cons (fun _ ↦ ?_) (hread.of_extends hone ?_), ?_⟩
      · rw [Machine.after_succ, hnext, hafter]
      · rw [hframe _ (Nat.lt_succ_self _), Env.insert_same]
        rfl
      · rintro (v | y) hknown
        · exact hold v hknown
        · rfl
      · intro v hv
        rw [hframe v (Nat.lt_succ_of_lt hv), hold v hv]

end

/-! ## The wrapper -/

/-- What is returned for what `call` gives: a `Value`, or nothing after a call without one. -/
def CallResult.returns : CallResult → List Value
  | inst _ => []
  | value v => [v]

namespace Exported

variable {C : Chrono} {R : Type}

/-- The helper `call`, on a builder that knows of types: the builder it leaves is that of
`helperCall` (`emitCall_jitArg`), and its result is `none` for the panic. -/
def callIn (f : Exported) (bcx : TypedBuilder) (module : JITModule) (id : FuncId)
    (args : List (RustArg C)) : TypedBuilder × Option CallResult :=
  ((helperCall bcx module id args).1,
    (f.call module id (args.map RustArg.jitArg) bcx.toFunctionBuilder).2)

/-- The body is `|bcx, module, params| name_jit::call(bcx, module, id, ..)`, as far as that does
not panic; after a call without a value it may have a `;`. -/
def ReturnsCall [IntoReturns R] (f : Exported) (id : FuncId) (args : List (RustArg C))
    (body : TypedBuilder → JITModule → List Value → TypedBuilder × JITModule × R) : Prop :=
  ∀ bcx module params result, (f.callIn bcx module id args).2 = some result →
    ∃ r, intoReturns r = result.returns ∧
      body bcx module params = ((f.callIn bcx module id args).1, module, r)

variable {f : Exported} {module module' module'' : JITModule} {id : FuncId}

/-- Unless its return type is unit by another name, `call` does not panic, and gives the results
of the call. -/
theorem exists_callIn (hdecl : f.tryDeclare module = .ok (module', id))
    (hext : module'.Extends module'') (hunit : ¬ f.UnitByAnotherName module.pointerType)
    (bcx : TypedBuilder) (args : List (RustArg C)) :
    ∃ result, (f.callIn bcx module'' id args).2 = some result ∧
      result.returns = (helperCall bcx module'' id args).1.instResults
        (helperCall bcx module'' id args).2 := by
  have hlen := length_instResults hdecl hext (args.map RustArg.jitArg) bcx.toFunctionBuilder
  have hagrees := callAgrees_of_not_unit hdecl hext hunit (args.map RustArg.jitArg)
    bcx.toFunctionBuilder
  unfold CallAgrees at hagrees
  rw [emitCall_jitArg] at hlen hagrees
  rcases hagrees with ⟨lane, v, -, hv, hcall⟩ | ⟨hnil, hcall⟩
  · exact ⟨.value v, congrArg Prod.snd hcall, hv.symm⟩
  · rw [pointerType_of_tryDeclare hdecl hext] at hnil
    rw [hnil, List.length_nil, List.length_eq_zero_iff] at hlen
    exact ⟨.inst _, congrArg Prod.snd hcall, hlen.symm⟩

end Exported

/-- In a function of signature `sig`, a function of signature `callee` is called with arguments
that are parameters or constants, of the types of its parameters, and what it returns fits. -/
structure Wraps {C : Chrono} (sig callee : Signature) (args : List (RustArg C)) : Prop where
  known : ∀ lane ∈ args.flatMap RustArg.lanes, lane.KnownTo (.entry sig)
  params : (args.flatMap RustArg.lanes).map (Lane.ty (TypedBuilder.entry sig).valueType) =
    callee.params
  returns : sig.returns = callee.returns
  sim : ∀ ty ∈ sig.returns, ty.isSim

section

variable {C : Chrono} {sig : Signature} {args : List (RustArg C)} {module : JITModule}
  {id : FuncId} {decl : FunctionDeclaration}

/-- The entry block, with the callee imported. -/
def imported (sig : Signature) (id : FuncId) (callee : Signature) : TypedBuilder :=
  { TypedBuilder.entry sig with extFuncs := [(id, callee)] }

/-- What the helper emits: the constants, and the call. -/
theorem exists_emits_of_helperCall (hptr : module.pointerType = .I64)
    (hdecl : module.declarations[id.index]? = some decl) :
    ∃ bcx vs, Emits (imported sig id decl.signature) (args.flatMap RustArg.lanes) bcx vs ∧
      helperCall (.entry sig) module id args = bcx.insCall ⟨0⟩ vs := by
  have hdeclare : (TypedBuilder.entry sig).declareFuncInFunc module id =
      (imported sig id decl.signature, ⟨0⟩) := by
    simp only [TypedBuilder.declareFuncInFunc, JITModule.declareFuncInFunc, hdecl, Option.map_some,
      Option.getD_some]
    rfl
  obtain ⟨vs, hout, hemits⟩ := RustArg.appends_lowerAll args (imported sig id decl.signature) []
  refine ⟨_, vs, hemits, ?_⟩
  rw [List.nil_append] at hout
  simp only [helperCall, hptr, hdeclare]
  rw [hout]

/-- The call is an instruction of the function, with a result for each return. -/
theorem insCall_eq {bcx : TypedBuilder} {callee : Signature} (h : bcx.extFuncs = [(id, callee)])
    (vs : List Value) :
    bcx.insCall ⟨0⟩ vs = bcx.insert (.call .call vs ⟨0⟩) callee.returns := by
  rw [TypedBuilder.insCall, h]
  rfl

end

/-- What the wrapper is, apart from how it was built: constants, a call of the callee, and a
return of its results. -/
structure IsWrapper (sig : Signature) (id : FuncId) (callee : Signature) (lanes : List Lane)
    (bcx : TypedBuilder) (vs : List Value) : Prop where
  emits : Emits (imported sig id callee) lanes bcx vs
  known : ∀ lane ∈ lanes, lane.KnownTo (.entry sig)
  params : lanes.map (Lane.ty (TypedBuilder.entry sig).valueType) = callee.params
  returns : sig.returns = callee.returns
  sim : ∀ ty ∈ sig.returns, ty.isSim

namespace IsWrapper

variable {sig : Signature} {id : FuncId} {callee : Signature} {lanes : List Lane}
  {bcx : TypedBuilder} {vs : List Value}

/-- The builder after the call. -/
def called (bcx : TypedBuilder) (callee : Signature) (vs : List Value) : TypedBuilder :=
  (bcx.insert (.call .call vs ⟨0⟩) callee.returns).1

/-- The results of the call. -/
def results (bcx : TypedBuilder) (callee : Signature) : List Value :=
  freshResults bcx callee.returns.length

/-- The function. -/
def func (sig : Signature) (bcx : TypedBuilder) (callee : Signature) (vs : List Value) :
    Function :=
  (called bcx callee vs).build sig (results bcx callee)

theorem nodup_results : (results bcx callee).Nodup := by
  refine List.Nodup.map ?_ List.nodup_range
  intro i j h
  exact Nat.add_left_cancel (congrArg Value.index h)

theorem builds_constants (h : IsWrapper sig id callee lanes bcx vs) :
    Builds sig (.entry sig) bcx :=
  .trans (.declare .refl (id, callee)) h.emits.builds

theorem builds (h : IsWrapper sig id callee lanes bcx vs) :
    Builds sig (.entry sig) (called bcx callee vs) := by
  have hext := h.emits.extFuncs
  refine .insert h.builds_constants rfl ⟨h.emits.known h.known, ?_⟩ (.call ?_ ?_ ?_)
  · rintro opcode args f ⟨⟩
    rw [hext]
    exact Nat.one_pos
  · show vs.map bcx.valueType = (bcx.extFuncs[0]?.elim _ _ : ExtFuncData).signature.params
    rw [hext, (h.emits.matches_valueType (.refl bcx)).map_eq h.known]
    exact h.params
  · show _ = (bcx.extFuncs[0]?.elim _ _ : ExtFuncData).signature.returns
    rw [hext]
    rfl
  · rw [← h.returns]
    exact h.sim

theorem fits (h : IsWrapper sig id callee lanes bcx vs) :
    Fits sig (called bcx callee vs) (results bcx callee) where
  known _ hv := (mem_freshResults.mp hv).2
  types := map_valueType_freshResults.trans h.returns.symm

theorem verified (h : IsWrapper sig id callee lanes bcx vs) :
    Verified (func sig bcx callee vs) entryBlock :=
  (verified_build_iff h.builds).mpr ⟨h.fits.known, h.fits.types⟩

theorem finishes : (called bcx callee vs).Finishes (func sig bcx callee vs) entryBlock :=
  (finishes_func _ sig).of_extends (TypedBuilder.extends_insert _ _ _)

theorem regular (h : IsWrapper sig id callee lanes bcx vs) : Regular sig (called bcx callee vs) :=
  h.builds.regular (regular_entry sig)

/-- The wrapper accesses no memory itself. -/
theorem usesPointers (h : IsWrapper sig id callee lanes bcx vs) :
    UsesPointers (func sig bcx callee vs) := by
  have hnone : ∀ e ∈ (called bcx callee vs).insts, e.1.addresses = [] := by
    intro e he
    rcases List.mem_append.mp he with he | he
    · exact h.emits.addresses (fun e he ↦ absurd he List.not_mem_nil) e he
    · cases List.mem_singleton.mp he
      rfl
  intro b hb inst hinst v hv
  cases List.mem_singleton.mp hb
  rw [func, h.regular.blockInsts_build, List.mem_append, List.mem_map, List.mem_singleton] at hinst
  exfalso
  rcases hinst with ⟨j, hj, rfl⟩ | rfl
  · obtain ⟨data, rs, hget, hdata, -⟩ := Regular.exists_of_lt sig (results bcx callee)
      (List.mem_range.mp hj)
    rw [func, hdata, hnone _ (List.mem_of_getElem? hget)] at hv
    exact List.not_mem_nil hv
  · rw [func, Regular.data_return] at hv
    exact List.not_mem_nil hv

/-! ### Calling the host -/

/-- The callee, as the host gets to see it. -/
def calleeData (id : FuncId) (callee : Signature) : ExtFuncData := ⟨s!"u0:{id.index}", callee⟩

variable {host : Host} {xs vals : List BitVal} {mem : Mem}

theorem instAt_call (h : IsWrapper sig id callee lanes bcx vs) :
    (func sig bcx callee vs).instAt ⟨entryBlock, bcx.insts.length⟩ = some ⟨bcx.insts.length⟩ ∧
      (func sig bcx callee vs).data ⟨bcx.insts.length⟩ = .call .call vs ⟨0⟩ ∧
      (func sig bcx callee vs).dfg.instResults ⟨bcx.insts.length⟩ = results bcx callee := by
  have hinsts : (called bcx callee vs).insts[bcx.insts.length]? =
      some (.call .call vs ⟨0⟩, results bcx callee) := List.getElem?_concat_length
  obtain ⟨hdata, hresults⟩ := finishes.insts bcx.insts.length _ _ hinsts
  refine ⟨h.regular.instAt_build ?_, hdata, hresults⟩
  exact (List.getElem?_eq_some_iff.mp hinsts).1.le

theorem instAt_return (h : IsWrapper sig id callee lanes bcx vs) :
    (func sig bcx callee vs).instAt ⟨entryBlock, bcx.insts.length + 1⟩ =
        some ⟨bcx.insts.length + 1⟩ ∧
      (func sig bcx callee vs).data ⟨bcx.insts.length + 1⟩ =
        .multiAry .return_ (results bcx callee) := by
  have hlength : (called bcx callee vs).insts.length = bcx.insts.length + 1 := by
    show (bcx.insts ++ [_]).length = _
    rw [List.length_append, List.length_singleton]
  constructor
  · exact h.regular.instAt_build hlength.ge
  · have hdata : (func sig bcx callee vs).data ⟨(called bcx callee vs).insts.length⟩ =
        .multiAry .return_ (results bcx callee) := Regular.data_return
    rwa [hlength] at hdata

/-- What the parameters hold at the start. -/
def startEnv (sig : Signature) (xs : List BitVal) : BitEnv :=
  Env.insertAll (entryParams sig) xs .empty

/-- The reference machine comes to the call with its arguments. -/
theorem exists_after_constants (h : IsWrapper sig id callee lanes bcx vs) (host : Host)
    (mem : Mem) (hvals : lanes.map (Lane.bits (startEnv sig xs)) = vals.map some) :
    ∃ env, (Full.machine (func sig bcx callee vs) host).after bcx.insts.length
        (Full.start (func sig bcx callee vs) mem xs) =
          .running ⟨entryBlock, bcx.insts.length⟩ env mem ∧
      env.lookupAll vs = .ok vals := by
  have hlength : bcx.blockInsts.length = bcx.insts.length := by
    rw [(h.builds_constants.regular (regular_entry sig)).blockInsts, List.length_map,
      List.length_range]
  obtain ⟨k, env, hk, hafter, hread, -⟩ := full_after_of_emits host h.emits
    (finishes.of_extends (TypedBuilder.extends_insert _ _ _)) (startEnv sig xs) mem
  have hzero : (imported sig id callee).blockInsts.length = 0 := rfl
  rw [hzero, Nat.zero_add, hlength] at hk
  rw [hzero, hk, hlength] at hafter
  exact ⟨env, hafter, Env.lookupAll_eq_ok_iff.mpr ((hread.map_eq h.known).trans hvals)⟩

/-- The wrapper returns what the host returns for the call. -/
theorem haltsAt (h : IsWrapper sig id callee lanes bcx vs)
    (hvals : lanes.map (Lane.bits (startEnv sig xs)) = vals.map some)
    (hhost : (host (calleeData id callee) vals mem).1.length = sig.returns.length) :
    (Full.machine (func sig bcx callee vs) host).HaltsAt
      (Full.start (func sig bcx callee vs) mem xs) (bcx.insts.length + 2)
      (.returned (host (calleeData id callee) vals mem).1,
        (host (calleeData id callee) vals mem).2) := by
  obtain ⟨env, hafter, hlookup⟩ := h.exists_after_constants host mem hvals
  obtain ⟨hcall, hcallData, hcallResults⟩ := h.instAt_call
  obtain ⟨hreturn, hreturnData⟩ := h.instAt_return
  have hcallee : (func sig bcx callee vs).dfg.extFuncs ⟨0⟩ = calleeData id callee := by
    show (bcx.extFuncs[0]?.elim _ _ : ExtFuncData) = _
    rw [h.emits.extFuncs]
    rfl
  rcases hr : host (calleeData id callee) vals mem with ⟨rs, mem'⟩
  rw [hr] at hhost
  have hnext : (Full.machine (func sig bcx callee vs) host).next
      (.running ⟨entryBlock, bcx.insts.length⟩ env mem) =
        .running ⟨entryBlock, bcx.insts.length + 1⟩
          (Env.insertAll (results bcx callee) rs env) mem' := by
    rw [Full.next_of_instAt _ hcall, hcallData]
    simp only [Full.exec, InstructionData.opcode, Opcode.isReference, Bool.false_eq_true, if_false,
      Full.call, hlookup, hcallee, hr, hcallResults]
  have hresults : (Env.insertAll (results bcx callee) rs env).lookupAll (results bcx callee) =
      .ok rs := by
    refine Env.lookupAll_eq_ok_iff.mpr (Env.map_insertAll_self nodup_results ?_ env)
    rw [hhost, h.returns, results, freshResults, List.length_map, List.length_range]
  have hlast : (Full.machine (func sig bcx callee vs) host).next
      (.running ⟨entryBlock, bcx.insts.length + 1⟩
        (Env.insertAll (results bcx callee) rs env) mem') = .ended (.returned rs) mem' := by
    rw [Full.next_of_instAt _ hreturn, hreturnData]
    simp only [Full.exec, InstructionData.opcode, Opcode.isReference, if_true, Reference.exec,
      hresults, Full.Config.ofInteger]
  have hafter₁ : (Full.machine (func sig bcx callee vs) host).after (bcx.insts.length + 1)
      (Full.start (func sig bcx callee vs) mem xs) =
        .running ⟨entryBlock, bcx.insts.length + 1⟩
          (Env.insertAll (results bcx callee) rs env) mem' := by
    rw [Machine.after_succ', hafter, hnext]
  constructor
  · refine Machine.running_of_done_eq_none Full.next_of_done ?_
    rw [hafter₁]
    rfl
  · rw [Machine.after_succ', hafter₁, hlast]
    rfl

theorem numInsts (h : IsWrapper sig id callee lanes bcx vs) :
    (func sig bcx callee vs).numInsts = bcx.insts.length + 2 := by
  have hblock : ((func sig bcx callee vs).layout.blockInsts entryBlock).length =
      bcx.insts.length + 2 := by
    rw [func, h.regular.blockInsts_build, List.length_append, List.length_map, List.length_range,
      List.length_singleton]
    show (bcx.insts ++ [_]).length + 1 = _
    rw [List.length_append, List.length_singleton]
  exact (Nat.add_zero _).trans hblock

end IsWrapper

/-! ## Defining it -/

/-- What the callee gets for a lane where the wrapper is given `xs`. -/
def Lane.arg (xs : List BitVal) : Lane → Option BitVal
  | value v => xs[v.index]?
  | const x => some x.toBits

/-- At the start the parameters hold what the wrapper is given. -/
theorem startEnv_eq {sig : Signature} {xs : List BitVal} (hxs : xs.length = sig.params.length)
    {v : Value} (hv : v.index < sig.params.length) :
    IsWrapper.startEnv sig xs v = xs[v.index]? := by
  have hnodup : (entryParams sig).Nodup :=
    List.Nodup.map (fun i j h ↦ congrArg Value.index h) List.nodup_range
  have hlength : xs.length = (entryParams sig).length := by
    rw [hxs, entryParams, List.length_map, List.length_range]
  have hmap := congrArg (·[v.index]?) (Env.map_insertAll_self hnodup hlength .empty)
  have hget : (entryParams sig)[v.index]? = some v := by
    rw [entryParams, List.getElem?_map, List.getElem?_range hv]
    rfl
  simp only [List.getElem?_map, hget, Option.map_some] at hmap
  rw [List.getElem?_eq_getElem (hxs ▸ hv)] at hmap ⊢
  exact Option.some.inj hmap

/-- Every lane of a wrapper has a value. -/
theorem exists_args {sig : Signature} {lanes : List Lane}
    (hknown : ∀ lane ∈ lanes, lane.KnownTo (.entry sig)) {xs : List BitVal}
    (hxs : xs.length = sig.params.length) : ∃ vals : List BitVal,
      lanes.map (Lane.arg xs) = vals.map some ∧
      lanes.map (Lane.bits (IsWrapper.startEnv sig xs)) = vals.map some := by
  induction lanes with
  | nil => exact ⟨[], rfl, rfl⟩
  | cons lane lanes ih =>
      obtain ⟨vals, hvals, hbits⟩ := ih fun l hl ↦ hknown l (List.mem_cons_of_mem _ hl)
      obtain ⟨x, hx, hx'⟩ : ∃ x, lane.arg xs = some x ∧
          lane.bits (IsWrapper.startEnv sig xs) = some x := by
        cases lane with
        | const x => exact ⟨_, rfl, rfl⟩
        | value v =>
            have hv : v.index < sig.params.length := hknown (.value v) List.mem_cons_self
            have hget : xs[v.index]? = some _ := List.getElem?_eq_getElem (hxs ▸ hv)
            exact ⟨_, hget, (startEnv_eq hxs hv).trans hget⟩
      refine ⟨x :: vals, ?_, ?_⟩
      · rw [List.map_cons, hx, hvals, List.map_cons]
      · rw [List.map_cons, hx', hbits, List.map_cons]

section

variable [RustCore] {E R : Type} [IntoReturns R] {C : Chrono} {impl : ModuleImpl JITModule E}
  {callee callee' module module' : JITModule} {id wrapId : FuncId} {name : String}
  {linkage : Linkage} {sig : Signature} {args : List (RustArg C)}
  {body : TypedBuilder → JITModule → List Value → TypedBuilder × JITModule × R} {ctx : Context}

omit [RustCore] in
/-- What is built of the body of a wrapper is one. -/
theorem exists_isWrapper (f : Exported) (hptr : callee.pointerType = .I64)
    (hunit : ¬ f.UnitByAnotherName .I64) (hdeclare : f.tryDeclare callee = .ok (callee', id))
    (hext : ∀ declared i, impl.declareFunction module name linkage sig = (declared, .ok i) →
      callee'.Extends declared)
    (hbody : f.ReturnsCall id args body)
    (hdefine : declareAndBuild impl module name linkage sig body = (module', .ok (wrapId, ctx)))
    (hwraps : Wraps sig (f.signature .I64) args) :
    ∃ bcx vs, IsWrapper sig id (f.signature .I64) (args.flatMap RustArg.lanes) bcx vs ∧
      ctx.func = IsWrapper.func sig bcx (f.signature .I64) vs := by
  obtain ⟨declared, bcx', returns, hdeclared, hreturned, hfunc⟩ :=
    exists_body_of_declareAndBuild hdefine
  have hextends := hext declared wrapId hdeclared
  obtain ⟨hcallee, hdecl⟩ := JITModule.declareFunction_ok hdeclare
  rw [hptr] at hdecl
  obtain ⟨bcx, vs, hemits, hcall⟩ : ∃ bcx vs,
      Emits (imported sig id (f.signature .I64)) (args.flatMap RustArg.lanes) bcx vs ∧
        helperCall (.entry sig) declared id args = bcx.insCall ⟨0⟩ vs :=
    exists_emits_of_helperCall
      (hextends.pointerType.trans (hcallee.pointerType.trans hptr))
      (hextends.getElem?_declarations hdecl)
  refine ⟨bcx, vs, ⟨hemits, hwraps.known, hwraps.params, hwraps.returns, hwraps.sim⟩, ?_⟩
  rw [insCall_eq hemits.extFuncs] at hcall
  have hresults : ((bcx.insert (.call .call vs ⟨0⟩) (f.signature .I64).returns).1.instResults
      (bcx.insert (.call .call vs ⟨0⟩) (f.signature .I64).returns).2) =
        IsWrapper.results bcx (f.signature .I64) := by
    show ((bcx.insts ++ [_])[bcx.insts.length]?).elim _ _ = _
    rw [List.getElem?_concat_length]
    rfl
  -- the helper does not panic, so the body returns the results of its call
  obtain ⟨result, hresult, hvalues⟩ :=
    f.exists_callIn hdeclare hextends (hptr ▸ hunit) (.entry sig) args
  obtain ⟨r, hr, heq⟩ := hbody _ declared (entryParams sig) result hresult
  rw [hcall, hresults] at hvalues
  have hbuilder : (f.callIn (.entry sig) declared id args).1 =
      IsWrapper.called bcx (f.signature .I64) vs := congrArg Prod.fst hcall
  cases hreturned.symm.trans heq
  rw [hfunc, hr, hvalues, hbuilder]
  rfl

/-- **Wrappers call.**  An exported function whose return type is not unit by another name is
declared by its helper, and a wrapper is defined in the module or a later one, whose body calls
the function through its helper with parameters and constants of the types of its parameters
and returns what the helper gives.  The wrapper is verified.  On every input and memory, and
whatever the host does, it calls the host once with the values of the arguments, and returns
what the host returns and with the memory the host leaves.  Run in the simulator, it returns
zeros and leaves the memory as it is. -/
theorem wrapper_calls (f : Exported) (hptr : callee.pointerType = .I64)
    (hunit : ¬ f.UnitByAnotherName .I64) (hdeclare : f.tryDeclare callee = .ok (callee', id))
    (hext : ∀ declared i, impl.declareFunction module name linkage sig = (declared, .ok i) →
      callee'.Extends declared)
    (hbody : f.ReturnsCall id args body)
    (hdefine : declareAndBuild impl module name linkage sig body = (module', .ok (wrapId, ctx)))
    (hwraps : Wraps sig (f.signature .I64) args) :
    Verified ctx.func entryBlock ∧
      (∀ (host : Host) (mem : Mem) (xs : List BitVal), xs.length = sig.params.length →
        ∃ vals, (args.flatMap RustArg.lanes).map (Lane.arg xs) = vals.map some ∧
          let r := host (IsWrapper.calleeData id (f.signature .I64)) vals mem
          (r.1.length = sig.returns.length →
            (Full.machine ctx.func host).HaltsAt (Full.start ctx.func mem xs) ctx.func.numInsts
              (.returned r.1, r.2))) ∧
      ∀ (sim : Simulator) (xs : List SimValue), xs.map SimValue.ty = sig.params →
        ctx.func.numInsts ≤ sim.maxSteps → ∃ r, sim.run ctx.func xs = some r ∧ r.error = none ∧
          r.returns.map SimValue.toBits = sig.returns.map (fun ty ↦ ⟨ty, 0⟩) ∧
          r.memory.toMem = sim.memory.toMem := by
  obtain ⟨bcx, vs, hwrapper, hfunc⟩ :=
    exists_isWrapper f hptr hunit hdeclare hext hbody hdefine hwraps
  rw [hfunc, hwrapper.numInsts]
  refine ⟨hwrapper.verified, ?_, ?_⟩
  · intro host mem xs hxs
    obtain ⟨vals, hvals, hbits⟩ := exists_args hwraps.known hxs
    exact ⟨vals, hvals, fun hhost ↦ hwrapper.haltsAt hbits hhost⟩
  · intro sim xs hxs hbudget
    have hlength : (xs.map SimValue.toBits).length = sig.params.length := by
      rw [← hxs, List.length_map, List.length_map]
    obtain ⟨vals, -, hbits⟩ := exists_args hwraps.known hlength
    have hzeros : Host.stub (IsWrapper.calleeData id (f.signature .I64)) vals sim.memory.toMem =
        (sig.returns.map fun ty ↦ ⟨ty, 0⟩, sim.memory.toMem) := by
      rw [hwraps.returns]
      rfl
    have hhalts : (Full.machine (IsWrapper.func sig bcx (f.signature .I64) vs) .stub).HaltsAt
        (Full.start _ sim.memory.toMem (xs.map SimValue.toBits)) (bcx.insts.length + 2) _ :=
      hwrapper.haltsAt hbits (by rw [hzeros, List.length_map])
    obtain ⟨r, hrun, hreports⟩ :=
      reports_of_haltsAt sim hwrapper.verified hwrapper.usesPointers hxs hhalts hbudget
    rw [hzeros] at hreports
    obtain ⟨herror, hreturns, hmem⟩ := hreports.of_returned
    exact ⟨r, hrun, herror, hreturns, hmem.symm⟩

end

/-! ## Doubling -/

namespace Double

/-- `fn double_i64(x: i64) -> i64`. -/
def double : Exported where
  path := []
  input := ⟨"double_i64", false, none, [.typed (.path "i64" (n := 0) Fin.elim0)],
    .type (.path "i64" (n := 0) Fin.elim0)⟩
  out := ⟨_, _, _, _, _⟩
  accepted := rfl
  scope := fun _ ↦ none
  signature := fun _ ↦ ⟨[.I64], [.I64]⟩
  compiles := fun _ ↦ rfl
  symbolAddr := 0

/-- `fn(i64) -> i64`. -/
def sig : Signature := ⟨[.I64], [.I64]⟩

/-- The parameter. -/
def args : List (RustArg .absent) := [.value ⟨0⟩]

/-- The module in which `double_i64` is declared. -/
def module : JITModule := ⟨.I64, .empty, [⟨double.out.name, sig⟩]⟩

/-- `|bcx, module, params| double_i64_jit::call(bcx, module, ext_id, params[0])`. -/
def body (bcx : TypedBuilder) (module : JITModule) (_params : List Value) :
    TypedBuilder × JITModule × List Value :=
  let (bcx, result) := double.callIn bcx module ⟨0⟩ args
  (bcx, module, result.elim [] CallResult.returns)

theorem returnsCall : double.ReturnsCall ⟨0⟩ args body := by
  intro bcx module params result hresult
  refine ⟨result.returns, rfl, ?_⟩
  simp only [body, hresult, Option.elim_some]

theorem not_unitByAnotherName : ¬ double.UnitByAnotherName .I64 := by
  rintro ⟨ty, hty, t, ht, hunit⟩
  cases hty
  cases ht
  cases hunit

/-- The wrapper, in the module of `double_i64`. -/
def wrapped : JITModule × Except ModuleError (FuncId × Context) :=
  declareAndBuild JITModule.impl module "wrap" .export_ sig body

theorem exists_wrapped : ∃ module' id ctx, wrapped = (module', .ok (id, ctx)) :=
  ⟨_, _, _, rfl⟩

theorem wraps : Wraps sig (double.signature .I64) args where
  known := by
    intro lane hlane
    cases List.mem_singleton.mp hlane
    exact Nat.one_pos
  params := rfl
  returns := rfl
  sim := by decide

/-- The host doubles. -/
def host : Host := fun _ vals mem ↦ (vals.map fun v ↦ ⟨v.ty, v.bits + v.bits⟩, mem)

end Double

section

local instance wrapperFmt : RustCore := .blank

/-- The double of 21 is 42. -/
theorem wrapper_calls_double : ∃ ctx, (∃ module' id, Double.wrapped = (module', .ok (id, ctx))) ∧
    (Full.machine ctx.func Double.host).HaltsAt (Full.start ctx.func (fun _ ↦ none) [⟨.I64, 21⟩])
      ctx.func.numInsts (.returned [⟨.I64, 42⟩], fun _ ↦ none) := by
  obtain ⟨module', id, ctx, hwrapped⟩ := Double.exists_wrapped
  have hdeclare : Double.double.tryDeclare (.new ⟨.empty⟩ .I64) = .ok (Double.module, ⟨0⟩) := rfl
  obtain ⟨-, hhost, -⟩ := wrapper_calls Double.double rfl Double.not_unitByAnotherName hdeclare
    (fun _ _ ↦ JITModule.isModule_impl.extends_of_declare) Double.returnsCall hwrapped
    Double.wraps
  obtain ⟨vals, hvals, hcall⟩ := hhost Double.host (fun _ ↦ none) [⟨.I64, 21⟩] rfl
  obtain rfl : [⟨.I64, 21⟩] = vals := (Option.some_injective _).list_map hvals
  exact ⟨ctx, ⟨module', id, hwrapped⟩, hcall rfl⟩

end

end LowerIrUtils.Export
