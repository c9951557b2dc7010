import LowerIrUtils.Export.AbiAgreement

/-!
# The result of the helper `call`

Whether `call` gives a value is decided by the macro from how the return type is written,
while whether the call it emits has a result is decided by `JitParam` from what the return
type means.  The two differ for a unit type that is not written `()`, and then the helper
reads a result that is not there.
-/

namespace LowerIrUtils.Export

open Clif

namespace Exported

variable (f : Exported)

/-- The return type means unit, but is not written so. -/
def UnitByAnotherName (ptrTy : Ty) : Prop :=
  ∃ ty, f.input.output.returnType = some ty ∧
    ∃ t, ty.resolve f.scope helperGenerics = some t ∧ t.isUnit ptrTy = true

variable {f}

/-- The returns of the signature come from the return type the macro has found. -/
theorem signature_returns (ptrTy : Ty) :
    pushParams f.scope helperGenerics ptrTy f.input.output.returnType.toList =
      some (f.signature ptrTy).returns := by
  rw [pushParams_returnType]
  exact ((signature_eq_some_iff f.accepted).mp (f.compiles ptrTy)).2

theorem returns_of_returnType_eq_none {ptrTy : Ty} (h : f.input.output.returnType = none) :
    (f.signature ptrTy).returns = [] := by
  have hreturns := signature_returns (f := f) ptrTy
  rw [h] at hreturns
  exact (Option.some.inj hreturns).symm

/-- A return type the macro has found gives one return, or none where it means unit. -/
theorem returns_of_returnType_eq_some (ptrTy : Ty) {ty : TypeExpr}
    (h : f.input.output.returnType = some ty) :
    f.UnitByAnotherName ptrTy ∧ (f.signature ptrTy).returns = [] ∨
      ¬ f.UnitByAnotherName ptrTy ∧ ∃ lane, (f.signature ptrTy).returns = [lane] := by
  have hreturns := signature_returns (f := f) ptrTy
  rw [h] at hreturns
  simp only [Option.toList_some, pushParams, Option.bind_eq_bind, Option.bind_eq_some_iff,
    Option.some.injEq] at hreturns
  obtain ⟨first, hfirst, _, rfl, hfirst'⟩ := hreturns
  rw [List.append_nil] at hfirst'
  subst hfirst'
  obtain ⟨t, ht, hlanes⟩ := lanes_eq_some_iff.mp hfirst
  rcases RustTy.jitParam_cases hlanes with ⟨hunit, hnil⟩ | ⟨hunit, hlane⟩
  · exact .inl ⟨⟨ty, h, t, ht, hunit⟩, hnil⟩
  · refine .inr ⟨?_, hlane⟩
    rintro ⟨ty', hty', t', ht', hunit'⟩
    rw [h] at hty'
    cases hty'
    rw [ht] at ht'
    cases ht'
    rw [hunit] at hunit'
    cases hunit'

/-- The helper `call` gives the result of the call it emits if the signature has one return,
and the call itself if the signature has none. -/
def CallAgrees (f : Exported) (module : JITModule) (id : FuncId) (args : List JitArg)
    (bcx : FunctionBuilder) : Prop :=
  let returns := (f.signature module.pointerType).returns
  let (bcx', inst) := emitCall module id args bcx
  (∃ lane v, returns = [lane] ∧ bcx'.instResults inst = [v] ∧
      f.call module id args bcx = (bcx', some (.value v))) ∨
    returns = [] ∧ f.call module id args bcx = (bcx', some (.inst inst))

section

variable {module module' module'' : JITModule} {id : FuncId}

/-- The call that a helper emits has a result for each return of the signature. -/
theorem length_instResults (hdecl : f.tryDeclare module = .ok (module', id))
    (hext : module'.Extends module'') (args : List JitArg) (bcx : FunctionBuilder) :
    ((emitCall module'' id args bcx).1.instResults (emitCall module'' id args bcx).2).length =
      (f.signature module.pointerType).returns.length :=
  (emitCall_spec (hext.getElem?_declarations (JITModule.declareFunction_ok hdecl).2) args bcx).2

theorem pointerType_of_tryDeclare (hdecl : f.tryDeclare module = .ok (module', id))
    (hext : module'.Extends module'') : module''.pointerType = module.pointerType :=
  hext.pointerType.trans (JITModule.declareFunction_ok hdecl).1.pointerType

theorem out_returnType : f.out.returnType = f.input.output.returnType :=
  (expandJitExport_ok f.accepted).2.2

/-- Where the return type means what it is written as, `call` gives what there is. -/
theorem callAgrees_of_not_unit (hdecl : f.tryDeclare module = .ok (module', id))
    (hext : module'.Extends module'') (hunit : ¬ f.UnitByAnotherName module.pointerType)
    (args : List JitArg) (bcx : FunctionBuilder) : CallAgrees f module'' id args bcx := by
  have hlen := length_instResults hdecl hext args bcx
  simp only [CallAgrees, call, out_returnType, pointerType_of_tryDeclare hdecl hext]
  cases hreturn : f.input.output.returnType with
  | none => exact .inr ⟨returns_of_returnType_eq_none hreturn, rfl⟩
  | some ty =>
      rcases returns_of_returnType_eq_some module.pointerType hreturn with
        ⟨hunit', -⟩ | ⟨-, lane, hlane⟩
      · exact absurd hunit' hunit
      · rw [hlane, List.length_singleton, List.length_eq_one_iff] at hlen
        obtain ⟨v, hv⟩ := hlen
        refine .inl ⟨lane, v, hlane, hv, ?_⟩
        rw [hv]
        rfl

/-- A unit by another name makes `call` read a result that is not there. -/
theorem call_of_unit (hdecl : f.tryDeclare module = .ok (module', id))
    (hext : module'.Extends module'') (hunit : f.UnitByAnotherName module.pointerType)
    (args : List JitArg) (bcx : FunctionBuilder) : (f.call module'' id args bcx).2 = none := by
  have hlen := length_instResults hdecl hext args bcx
  have ⟨ty, hreturn, _⟩ := hunit
  rcases returns_of_returnType_eq_some module.pointerType hreturn with
    ⟨-, hnil⟩ | ⟨hnot, -⟩
  · rw [hnil, List.length_nil, List.length_eq_zero_iff] at hlen
    simp only [call, out_returnType, hreturn, hlen]
    rfl
  · exact absurd hunit hnot

/-- **The result of `call`.**  For a function declared by its `try_declare`, in the module or
any later one, `call` gives the result of the call exactly if there is one, and otherwise
the call itself, if and only if its return type is not one that means unit without being
written `()`. -/
theorem callAgrees_iff (f : Exported) {module module' module'' : JITModule} {id : FuncId}
    (hdecl : f.tryDeclare module = .ok (module', id)) (hext : module'.Extends module'')
    (args : List JitArg) (bcx : FunctionBuilder) :
    CallAgrees f module'' id args bcx ↔ ¬ f.UnitByAnotherName module.pointerType := by
  refine ⟨?_, fun hunit ↦ callAgrees_of_not_unit hdecl hext hunit args bcx⟩
  intro h hunit
  have hnone := call_of_unit hdecl hext hunit args bcx
  rcases h with ⟨lane, v, -, -, hcall⟩ | ⟨-, hcall⟩
  · rw [hcall] at hnone
    cases hnone
  · rw [hcall] at hnone
    cases hnone

end

end Exported

/-! ## A unit in parentheses -/

/-- `fn done() -> output`. -/
def done (output : TypeExpr) : ItemFn where
  ident := "done"
  asyncness := false
  abi := none
  inputs := []
  output := .type output

/-- `fn done() -> i64`. -/
def doneScalar : Exported where
  path := []
  input := done (.path "i64" (n := 0) Fin.elim0)
  out := (done (.path "i64" (n := 0) Fin.elim0)).withAbi.expansion
  accepted := rfl
  scope := fun _ ↦ none
  signature := fun _ ↦ ⟨[], [.I64]⟩
  compiles := fun _ ↦ rfl
  symbolAddr := 0

/-- `fn done() -> (())`. -/
def doneParen : Exported where
  path := []
  input := done (.paren (.tuple (n := 0) Fin.elim0))
  out := (done (.paren (.tuple (n := 0) Fin.elim0))).withAbi.expansion
  accepted := rfl
  scope := fun _ ↦ none
  signature := fun _ ↦ ⟨[], []⟩
  compiles := fun _ ↦ rfl
  symbolAddr := 0

/-- The module in which only `done` is declared. -/
def doneModule (returns : List Ty) : JITModule := ⟨.I64, .empty, [⟨"done", ⟨[], returns⟩⟩]⟩

/-- A call of the function with a scalar result gives it. -/
theorem callAgrees_doneScalar :
    doneScalar.CallAgrees (doneModule [.I64]) ⟨0⟩ [] ⟨[], 0, []⟩ := by
  have hdecl : doneScalar.tryDeclare (.new ⟨.empty⟩ .I64) = .ok (doneModule [.I64], ⟨0⟩) := rfl
  refine (doneScalar.callAgrees_iff hdecl (.refl _) [] _).mpr ?_
  rintro ⟨ty, hty, t, ht, hunit⟩
  cases hty
  cases ht
  cases hunit

/-- A call of the function with a unit in parentheses has no first result. -/
theorem doneParen_panics :
    ¬ ∀ (f : Exported) (module module' module'' : JITModule) (id : FuncId) (args : List JitArg)
      (bcx : FunctionBuilder), f.tryDeclare module = .ok (module', id) →
      module'.Extends module'' → f.CallAgrees module'' id args bcx := by
  intro h
  rcases h doneParen (.new ⟨.empty⟩ .I64) (doneModule []) (doneModule []) ⟨0⟩ [] ⟨[], 0, []⟩ rfl
    (.refl _) with ⟨lane, v, hlane, -⟩ | ⟨-, hcall⟩
  · cases hlane
  · cases hcall

end LowerIrUtils.Export
