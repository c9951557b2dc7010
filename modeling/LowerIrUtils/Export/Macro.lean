import LowerIrUtils.Export.Module
import LowerIrUtils.Export.RustType

/-!
# The expansion of `#[jit_export]`

`expand_jit_export` of `macros/src/lib.rs` and the helpers of the module it generates.

The helpers are items of a module of their own, with `use super::*`.  That module defines
no types, so a type name in it means what it means next to the annotated function, except
where a generic of the helper shadows it: `signature` is generic over a type `M`.
-/

namespace LowerIrUtils.Export

open Clif

/-! ## Items -/

/-- `syn::FnArg`, without the attributes.  A parameter with a `#[cfg]` is one the function may
not have after all, while the helpers count it. -/
inductive FnArg where
  | receiver
  | typed (ty : TypeExpr)

/-- `syn::ReturnType`. -/
inductive ReturnType where
  | default
  | type (ty : TypeExpr)

/-- `syn::ItemFn`, as far as the macro looks at it.  An ABI without a name is that of a
bare `extern`. -/
structure ItemFn where
  ident : String
  asyncness : Bool
  abi : Option (Option String)
  inputs : List FnArg
  output : ReturnType

/-- The type of an argument that is not a receiver. -/
def FnArg.ty? : FnArg → Option TypeExpr
  | receiver => none
  | typed ty => some ty

/-- The function with `extern "C"` added if it has no ABI. -/
def ItemFn.withAbi (input : ItemFn) : ItemFn :=
  { input with abi := some (input.abi.getD (some "C")) }

/-- `param_types`. -/
def ItemFn.paramTypes (input : ItemFn) : List TypeExpr := input.inputs.filterMap FnArg.ty?

/-- `return_type`: `None` for a return type that is missing or written `()`. -/
def ReturnType.returnType : ReturnType → Option TypeExpr
  | default => none
  | type (.tuple (n := 0) _) => none
  | type ty => some ty

/-- Why an item is rejected. -/
inductive ExpandError where
  | async
  | abi
deriving DecidableEq, Repr

/-- The text of the error. -/
def ExpandError.message : ExpandError → String
  | async =>
      "#[jit_export] cannot be applied to an `async fn`: JIT call sites are " ++
      "synchronous machine code with no executor, and the generated signature " ++
      "would describe the future's output type rather than the opaque future " ++
      "the function actually returns. Wrap the async work in a synchronous shim " ++
      "(e.g. `tokio::runtime::Handle::block_on`) and annotate that shim instead."
  | abi => "#[jit_export] requires the native C ABI; use extern \"C\" or omit the ABI"

/-- What the macro emits: the function, and the module of its helpers. -/
structure Expansion where
  input : ItemFn
  helperMod : String
  /-- The constant `NAME`. -/
  name : String
  paramTypes : List TypeExpr
  returnType : Option TypeExpr

/-- How `format_ident!` writes an identifier: without the `r#` of a raw one. -/
def identFragment (ident : String) : String :=
  match ident.toList with
  | 'r' :: '#' :: cs => String.ofList cs
  | _ => ident

/-- What an item without an error is expanded to. -/
def ItemFn.expansion (input : ItemFn) : Expansion where
  input := input
  helperMod := identFragment input.ident ++ "_jit"
  name := input.ident
  paramTypes := input.paramTypes
  returnType := input.output.returnType

/-- `expand_jit_export`. -/
def expandJitExport (input : ItemFn) : Except ExpandError Expansion :=
  if input.asyncness then .error .async
  else
    let input := input.withAbi
    if input.abi.join.any (· ≠ "C") then .error .abi else .ok input.expansion

/-- What an accepted item is expanded to. -/
theorem expandJitExport_ok {input : ItemFn} {out : Expansion}
    (h : expandJitExport input = .ok out) :
    out.name = input.ident ∧ out.paramTypes = input.paramTypes ∧
      out.returnType = input.output.returnType := by
  unfold expandJitExport at h
  split at h
  · cases h
  · dsimp only at h
    split at h
    · cases h
    · cases h
      exact ⟨rfl, rfl, rfl⟩

/-! ## The helper `signature` -/

section

variable {V : Type}

/-- The parameters a type as it is written contributes. -/
def lanes (scope : Scope) (generics : String → Option V) (ptrTy : Ty) (ty : TypeExpr) :
    Option (List Ty) := do
  let t ← ty.resolve scope generics
  t.jitParam ptrTy

/-- The parameters of the types of a list in turn. -/
def pushParams (scope : Scope) (generics : String → Option V) (ptrTy : Ty) :
    List TypeExpr → Option (List Ty)
  | [] => some []
  | ty :: tys => do
      let first ← lanes scope generics ptrTy ty
      let rest ← pushParams scope generics ptrTy tys
      some (first ++ rest)

end

/-- The generics of `signature`, which shadow what the module has under their name. -/
def helperGenerics (name : String) : Option Unit := if name = "M" then some () else none

/-- The helper `signature`, with `none` if it does not type-check. -/
def Expansion.signature (out : Expansion) (scope : Scope) (ptrTy : Ty) : Option Signature := do
  let params ← pushParams scope helperGenerics ptrTy out.paramTypes
  let returns ← pushParams scope helperGenerics ptrTy out.returnType.toList
  some ⟨params, returns⟩

/-! ## The signature of the function itself -/

/-- The generics of the function itself: none.  The macro never looks at them, and the model
leaves functions with generics out. -/
def noGenerics (_ : String) : Option Empty := none

/-- The return type as it is written, if it is. -/
def ReturnType.types : ReturnType → List TypeExpr
  | default => []
  | type ty => [ty]

/-- The types in the signature of the function. -/
def ItemFn.types (input : ItemFn) : List TypeExpr := input.paramTypes ++ input.output.types

/-- The parameters and returns that `JitParam` gives to the types of the function as it
resolves them itself. -/
def ItemFn.nativeSignature (input : ItemFn) (scope : Scope) (ptrTy : Ty) : Option Signature := do
  let params ← pushParams scope noGenerics ptrTy input.paramTypes
  let returns ← pushParams scope noGenerics ptrTy input.output.types
  some ⟨params, returns⟩

/-! ## The helpers of a program -/

/-- An exported function of a program that compiles: the module path and the item it is
defined by, its expansion, its address, and the signature that its helper `signature`
builds for a type of pointers. -/
structure Exported where
  path : List String
  input : ItemFn
  out : Expansion
  accepted : expandJitExport input = .ok out
  scope : Scope
  signature : Ty → Signature
  compiles : ∀ ptrTy, out.signature scope ptrTy = some (signature ptrTy)
  symbolAddr : Addr

/-- The trait `JitArg`, of one argument.  Lowering it may append instructions and imports,
and gives values; a function that is imported stays so. -/
structure JitArg where
  lower : Ty → FunctionBuilder → FunctionBuilder × List Value
  extFuncs : ∀ ptrTy bcx, bcx.extFuncs <+: (lower ptrTy bcx).1.extFuncs

/-- Lower the arguments in turn into one buffer. -/
def lowerArgs (ptrTy : Ty) : List JitArg → FunctionBuilder → FunctionBuilder × List Value
  | [], bcx => (bcx, [])
  | arg :: args, bcx =>
      let (bcx, first) := arg.lower ptrTy bcx
      let (bcx, rest) := lowerArgs ptrTy args bcx
      (bcx, first ++ rest)

theorem extFuncs_lowerArgs (ptrTy : Ty) (args : List JitArg) (bcx : FunctionBuilder) :
    bcx.extFuncs <+: (lowerArgs ptrTy args bcx).1.extFuncs := by
  induction args generalizing bcx with
  | nil => exact List.prefix_rfl
  | cons arg args ih => exact (arg.extFuncs ptrTy bcx).trans (ih _)

/-- The call that the helper `call` emits. -/
def emitCall (module : JITModule) (id : FuncId) (args : List JitArg) (bcx : FunctionBuilder) :
    FunctionBuilder × Inst :=
  let (bcx, callee) := module.declareFuncInFunc id bcx
  let (bcx, argsBuf) := lowerArgs module.pointerType args bcx
  bcx.insCall callee argsBuf

/-- The call is one of the function with the id, and has a result for each of its returns. -/
theorem emitCall_spec {module : JITModule} {id : FuncId} {decl : FunctionDeclaration}
    (h : module.declarations[id.index]? = some decl) (args : List JitArg) (bcx : FunctionBuilder) :
    (emitCall module id args bcx).1.calleeOf (emitCall module id args bcx).2 = some id ∧
      ((emitCall module id args bcx).1.instResults (emitCall module id args bcx).2).length =
        decl.signature.returns.length := by
  have himport := module.getElem?_declareFuncInFunc h bcx
  obtain ⟨hlt, -⟩ := List.getElem?_eq_some_iff.mp himport
  obtain ⟨rest, hrest⟩ := extFuncs_lowerArgs module.pointerType args
    (module.declareFuncInFunc id bcx).1
  have hcallee : (lowerArgs module.pointerType args
      (module.declareFuncInFunc id bcx).1).1.extFuncs[(module.declareFuncInFunc id bcx).2.index]? =
        some (id, decl.signature) := by
    rw [← hrest, List.getElem?_append_left hlt]
    exact himport
  exact FunctionBuilder.insCall_spec hcallee _

/-- What the helper `call` returns. -/
inductive CallResult where
  | inst (inst : Inst)
  | value (v : Value)
deriving DecidableEq, Repr

namespace Exported

variable (f : Exported)

/-- The helper `register`. -/
def register (jb : JITBuilder) : JITBuilder := jb.symbol f.out.name f.symbolAddr

/-- The helper `try_declare`. -/
def tryDeclare (module : JITModule) : Except ModuleError (JITModule × FuncId) :=
  module.declareFunction f.out.name (f.signature module.pointerType)

/-- The helper `declare`, with `none` for a panic. -/
def declare (module : JITModule) : Option (JITModule × FuncId) := (f.tryDeclare module).toOption

/-- Declaring a function again does not panic; it gives the same id. -/
theorem declare_again {module module' : JITModule} {id : FuncId}
    (h : f.declare module = some (module', id)) : f.declare module' = some (module', id) := by
  have hok : f.tryDeclare module = .ok (module', id) := by
    unfold declare at h
    cases htry : f.tryDeclare module with
    | error e =>
        rw [htry] at h
        cases h
    | ok r =>
        rw [htry] at h
        cases h
        rfl
  have hptr := (JITModule.declareFunction_ok hok).1.pointerType
  rw [declare, tryDeclare, hptr, JITModule.declareFunction_again hok]
  rfl

/-- The helper `call`.  It gives the first result of the call it emits, or the call itself
where the macro has found no return type; `none` is the panic of an index out of bounds. -/
def call (module : JITModule) (id : FuncId) (args : List JitArg) (bcx : FunctionBuilder) :
    FunctionBuilder × Option CallResult :=
  let (bcx, inst) := emitCall module id args bcx
  match f.out.returnType with
  | none => (bcx, some (.inst inst))
  | some _ => (bcx, ((bcx.instResults inst)[0]?).map .value)

end Exported

end LowerIrUtils.Export
