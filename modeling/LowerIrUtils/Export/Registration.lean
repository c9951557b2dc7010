import LowerIrUtils.Export.Macro
import Mathlib.Data.List.Induction

/-!
# Which function a call goes to

The helpers `register`, `try_declare` and `call` of an exported function meet through its
`NAME` alone, and that is the bare identifier of the function.  A `JITBuilder` keeps one
address for a name, so of the functions with one identifier, in whatever modules they are
defined, every call goes to the one registered last.
-/

namespace LowerIrUtils.Export

open Clif

/-! ## Runs of the helpers -/

/-- Apply the `register` helpers of the functions in turn. -/
def registerAll (fs : List Exported) (jb : JITBuilder) : JITBuilder :=
  fs.foldl (fun jb f ↦ f.register jb) jb

/-- Apply the `try_declare` helpers of the functions in turn; one that fails leaves the
module as it is. -/
def declareAll (module : JITModule) : List Exported → JITModule
  | [] => module
  | f :: fs =>
      match f.tryDeclare module with
      | .ok (module, _) => declareAll module fs
      | .error _ => declareAll module fs

/-- The address a call emitted in `module` goes to when `final` is finalized. -/
def callAddr (module final : JITModule) (id : FuncId) (args : List JitArg)
    (bcx : FunctionBuilder) : Option Addr :=
  let (bcx, inst) := emitCall module id args bcx
  (bcx.calleeOf inst).bind final.address

/-- The function that was registered last of those with an identifier. -/
def lastNamed (fs : List Exported) (ident : String) : Option Exported :=
  (fs.filter (·.input.ident = ident)).getLast?

/-! ## Names and addresses -/

/-- `NAME` is the identifier of the function. -/
theorem Exported.name_eq (f : Exported) : f.out.name = f.input.ident :=
  (expandJitExport_ok f.accepted).1

/-- The address of a name is that of the function registered last under it. -/
theorem symbols_registerAll (fs : List Exported) (name : String) :
    (registerAll fs ⟨.empty⟩).symbols name = (lastNamed fs name).map Exported.symbolAddr := by
  induction fs using List.reverseRecOn with
  | nil => rfl
  | append_singleton fs f ih =>
      have hregister : registerAll (fs ++ [f]) ⟨.empty⟩ = f.register (registerAll fs ⟨.empty⟩) := by
        simp only [registerAll, List.foldl_append, List.foldl_cons, List.foldl_nil]
      rw [hregister, lastNamed, List.filter_append]
      show (registerAll fs ⟨.empty⟩).symbols.insert f.out.name f.symbolAddr name = _
      rw [Env.insert_apply, f.name_eq]
      by_cases hname : f.input.ident = name
      · have hfilter : [f].filter (·.input.ident = name) = [f] := by
          simp only [List.filter_cons, List.filter_nil, hname, decide_true, if_true]
        rw [hfilter, List.getLast?_concat, if_pos hname.symm]
        rfl
      · have hfilter : [f].filter (·.input.ident = name) = [] := by
          simp only [List.filter_cons, List.filter_nil, hname, decide_false, Bool.false_eq_true,
            if_false]
        rw [hfilter, List.append_nil, if_neg (Ne.symm hname)]
        exact ih

theorem extends_declareAll (module : JITModule) (fs : List Exported) :
    module.Extends (declareAll module fs) := by
  induction fs generalizing module with
  | nil => exact .refl module
  | cons f fs ih =>
      unfold declareAll
      cases hdecl : f.tryDeclare module with
      | error e => exact ih module
      | ok r => exact (JITModule.declareFunction_ok hdecl).1.trans (ih r.1)

/-- A call goes to the address of the name its function was declared under. -/
theorem callAddr_eq {f : Exported} {module module' call final : JITModule} {id : FuncId}
    (hdecl : f.tryDeclare module = .ok (module', id)) (hcall : module'.Extends call)
    (hfinal : call.Extends final) (args : List JitArg) (bcx : FunctionBuilder) :
    callAddr call final id args bcx = module.symbols f.input.ident := by
  obtain ⟨hext, hid⟩ := JITModule.declareFunction_ok hdecl
  have hidCall := hcall.getElem?_declarations hid
  obtain ⟨hcallee, -⟩ := emitCall_spec hidCall args bcx
  have hsymbols : final.symbols = module.symbols :=
    hfinal.symbols.trans (hcall.symbols.trans hext.symbols)
  simp only [callAddr, hcallee, Option.bind_some, JITModule.address,
    hfinal.getElem?_declarations hidCall, hsymbols, f.name_eq]

/-- **Which function a call goes to.**  Let exported functions with addresses of their own be
registered in any order, and `try_declare` be applied to them in any order, at some point
with success to `f`.  A call that the helper `call` of `f` emits from then on goes to `f` if
and only if `f` was registered last of the functions with its identifier. -/
theorem callAddr_eq_symbolAddr_iff {fs : List Exported}
    (hdistinct : ∀ g ∈ fs, ∀ h ∈ fs, g.symbolAddr = h.symbolAddr → g = h) {f : Exported}
    (hf : f ∈ fs) (ptrTy : Ty) (before between after : List Exported) {module' : JITModule}
    {id : FuncId}
    (hdecl : f.tryDeclare (declareAll (.new (registerAll fs ⟨.empty⟩) ptrTy) before) =
      .ok (module', id)) (args : List JitArg) (bcx : FunctionBuilder) :
    callAddr (declareAll module' between) (declareAll (declareAll module' between) after) id args
        bcx = some f.symbolAddr ↔
      lastNamed fs f.input.ident = some f := by
  have hsymbols : (declareAll (.new (registerAll fs ⟨.empty⟩) ptrTy) before).symbols =
      (registerAll fs ⟨.empty⟩).symbols := (extends_declareAll _ before).symbols
  rw [callAddr_eq hdecl (extends_declareAll _ _) (extends_declareAll _ _), hsymbols,
    symbols_registerAll]
  constructor
  · intro h
    obtain ⟨g, hg, haddr⟩ := Option.map_eq_some_iff.mp h
    have hmem : g ∈ fs := List.mem_of_mem_filter (List.mem_of_getLast? hg)
    rw [hg, hdistinct g hmem f hf haddr]
  · intro h
    rw [h]
    rfl

/-! ## Two functions of one name -/

/-- `pub fn hook()` in the module `path`, at an address. -/
def hook (path : List String) (symbolAddr : Addr) : Exported where
  path := path
  input := ⟨"hook", false, none, [], .default⟩
  out := ItemFn.expansion (ItemFn.withAbi ⟨"hook", false, none, [], .default⟩)
  accepted := rfl
  scope := fun _ ↦ none
  signature := fun _ ↦ ⟨[], []⟩
  compiles := fun _ ↦ rfl
  symbolAddr := symbolAddr

theorem hook_distinct : ∀ g ∈ [hook ["before"] 1, hook ["after"] 2],
    ∀ h ∈ [hook ["before"] 1, hook ["after"] 2], g.symbolAddr = h.symbolAddr → g = h := by
  intro g hg h hh haddr
  rcases List.mem_pair.mp hg with rfl | rfl <;> rcases List.mem_pair.mp hh with rfl | rfl
  · rfl
  · cases haddr
  · cases haddr
  · rfl

/-- The function registered last is the one its helper calls. -/
theorem callAddr_hook :
    callAddr ⟨.I64, (registerAll [hook ["before"] 1, hook ["after"] 2] ⟨.empty⟩).symbols,
        [⟨"hook", ⟨[], []⟩⟩]⟩
      ⟨.I64, (registerAll [hook ["before"] 1, hook ["after"] 2] ⟨.empty⟩).symbols,
        [⟨"hook", ⟨[], []⟩⟩]⟩ ⟨0⟩ [] ⟨[], 0, []⟩ = some 2 :=
  Iff.mpr (callAddr_eq_symbolAddr_iff hook_distinct (f := hook ["after"] 2) (by simp) .I64 [] [] []
    rfl [] ⟨[], 0, []⟩) rfl

/-- The helper of the one registered first calls the other. -/
theorem hook_misdispatched :
    ¬ ∀ (fs : List Exported) (f : Exported) (ptrTy : Ty) (before between after : List Exported)
      (module' : JITModule) (id : FuncId) (args : List JitArg) (bcx : FunctionBuilder),
      (∀ g ∈ fs, ∀ h ∈ fs, g.symbolAddr = h.symbolAddr → g = h) → f ∈ fs →
      f.tryDeclare (declareAll (.new (registerAll fs ⟨.empty⟩) ptrTy) before) =
        .ok (module', id) →
      callAddr (declareAll module' between) (declareAll (declareAll module' between) after) id
        args bcx = some f.symbolAddr := by
  intro h
  have haddr := h [hook ["before"] 1, hook ["after"] 2] (hook ["before"] 1) .I64 [] [] [] _ ⟨0⟩ []
    ⟨[], 0, []⟩ hook_distinct (by simp) rfl
  cases haddr

end LowerIrUtils.Export
