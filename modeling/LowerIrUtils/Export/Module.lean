import LowerIrUtils.Clif.Function
import LowerIrUtils.Machine.Env

/-!
# Cranelift's modules and builders

What the generated helpers use of `cranelift_jit`, `cranelift_module` and
`cranelift_frontend`, by its documentation: a `JITBuilder` is a map from names to
addresses in which the latest entry for a name wins; declaring a name again gives the id
it already has if the signatures are equal, and an error if they are not; and an imported
function is found at the address stored under its name.
-/

namespace LowerIrUtils.Export

open Clif

/-- A `*const u8`. -/
abbrev Addr := Nat

/-- `FuncId`. -/
structure FuncId where
  index : Nat
deriving DecidableEq, Repr

/-- `JITBuilder`. -/
structure JITBuilder where
  symbols : Env String Addr

/-- `JITBuilder::symbol`. -/
def JITBuilder.symbol (jb : JITBuilder) (name : String) (addr : Addr) : JITBuilder :=
  ⟨jb.symbols.insert name addr⟩

/-- `FunctionDeclaration`, of an import. -/
structure FunctionDeclaration where
  name : String
  signature : Signature
deriving DecidableEq, Repr

/-- `ModuleError`, as far as `declare_function` returns it. -/
inductive ModuleError where
  | incompatibleSignature (name : String) (prevSig newSig : Signature)
deriving DecidableEq, Repr

/-- `JITModule`. -/
structure JITModule where
  /-- `target_config().pointer_type()`. -/
  pointerType : Ty
  symbols : Env String Addr
  declarations : List FunctionDeclaration

namespace JITModule

/-- `JITModule::new`. -/
def new (jb : JITBuilder) (pointerType : Ty) : JITModule := ⟨pointerType, jb.symbols, []⟩

/-- The index of the declaration of a name. -/
def indexOf (module : JITModule) (name : String) : Option Nat :=
  module.declarations.findIdx? (·.name = name)

/-- `declare_function` with `Linkage::Import`. -/
def declareFunction (module : JITModule) (name : String) (sig : Signature) :
    Except ModuleError (JITModule × FuncId) :=
  match module.indexOf name with
  | none =>
      .ok ({ module with declarations := module.declarations ++ [⟨name, sig⟩] },
        ⟨module.declarations.length⟩)
  | some i =>
      let prev := ((module.declarations[i]?).map FunctionDeclaration.signature).getD sig
      if prev = sig then .ok (module, ⟨i⟩) else .error (.incompatibleSignature name prev sig)

/-- The address an imported id resolves to. -/
def address (module : JITModule) (id : FuncId) : Option Addr :=
  (module.declarations[id.index]?).bind fun decl ↦ module.symbols decl.name

/-- `module'` is `module` with more functions declared. -/
structure Extends (module module' : JITModule) : Prop where
  pointerType : module'.pointerType = module.pointerType
  symbols : module'.symbols = module.symbols
  declarations : module.declarations <+: module'.declarations

namespace Extends

variable {module module' module'' : JITModule}

theorem refl (module : JITModule) : module.Extends module := ⟨rfl, rfl, List.prefix_rfl⟩

theorem trans (h : module.Extends module') (h' : module'.Extends module'') :
    module.Extends module'' :=
  ⟨h'.pointerType.trans h.pointerType, h'.symbols.trans h.symbols,
    h.declarations.trans h'.declarations⟩

/-- A declaration stays. -/
theorem getElem?_declarations (h : module.Extends module') {i : Nat} {decl : FunctionDeclaration}
    (hi : module.declarations[i]? = some decl) : module'.declarations[i]? = some decl := by
  obtain ⟨rest, hrest⟩ := h.declarations
  have hlt : i < module.declarations.length := (List.getElem?_eq_some_iff.mp hi).1
  rw [← hrest, List.getElem?_append_left hlt]
  exact hi

end Extends

/-- The declaration that the index of a name belongs to. -/
theorem exists_of_indexOf {module : JITModule} {name : String} {i : Nat}
    (h : module.indexOf name = some i) :
    ∃ decl, module.declarations[i]? = some decl ∧ decl.name = name := by
  obtain ⟨hi, hname, -⟩ := List.findIdx?_eq_some_iff_getElem.mp h
  exact ⟨_, List.getElem?_eq_getElem hi, by simpa using hname⟩

/-- A function that could be declared is declared, under its name and signature; what was
declared before still is. -/
theorem declareFunction_ok {module module' : JITModule} {name : String} {sig : Signature}
    {id : FuncId} (h : module.declareFunction name sig = .ok (module', id)) :
    module.Extends module' ∧ module'.declarations[id.index]? = some ⟨name, sig⟩ := by
  unfold declareFunction at h
  split at h
  · cases h
    refine ⟨⟨rfl, rfl, List.prefix_append _ _⟩, ?_⟩
    exact List.getElem?_concat_length
  · rename_i i hi
    obtain ⟨decl, hdecl, rfl⟩ := exists_of_indexOf hi
    simp only [hdecl, Option.map_some, Option.getD_some] at h
    split at h
    · rename_i hsig
      cases h
      exact ⟨.refl _, by rw [hdecl, ← hsig]⟩
    · cases h

/-- Declaring a function again gives its id again. -/
theorem declareFunction_again {module module' : JITModule} {name : String} {sig : Signature}
    {id : FuncId} (h : module.declareFunction name sig = .ok (module', id)) :
    module'.declareFunction name sig = .ok (module', id) := by
  obtain ⟨-, hdecl⟩ := declareFunction_ok h
  have hindex : module'.indexOf name = some id.index := by
    unfold declareFunction at h
    split at h
    · rename_i hnone
      cases h
      have hfirst : module.declarations.findIdx? (·.name = name) = none := hnone
      simp [indexOf, List.findIdx?_append, hfirst]
    · rename_i i hi
      dsimp only at h
      split at h <;> cases h
      exact hi
  simp only [declareFunction, hindex, hdecl, Option.map_some, Option.getD_some, if_true]

end JITModule

/-! ## Building a function -/

/-- `FunctionBuilder`: the instructions so far with their results, and the functions
imported into the function. -/
structure FunctionBuilder where
  insts : List (InstructionData × List Value)
  numValues : Nat
  extFuncs : List (FuncId × Signature)

namespace FunctionBuilder

/-- `inst_results`. -/
def instResults (bcx : FunctionBuilder) (inst : Inst) : List Value :=
  (bcx.insts[inst.index]?).elim [] Prod.snd

/-- Append an instruction with `n` results. -/
def insert (bcx : FunctionBuilder) (data : InstructionData) (n : Nat) : FunctionBuilder × Inst :=
  let results := (List.range n).map fun i ↦ ⟨bcx.numValues + i⟩
  ({ bcx with insts := bcx.insts ++ [(data, results)], numValues := bcx.numValues + n },
    ⟨bcx.insts.length⟩)

/-- `ins().call(callee, args)`: the instruction has a result for each return of the
signature of its callee. -/
def insCall (bcx : FunctionBuilder) (callee : FuncRef) (args : List Value) :
    FunctionBuilder × Inst :=
  let returns := (bcx.extFuncs[callee.index]?).elim [] fun f ↦ f.2.returns
  bcx.insert (.call .call args callee) returns.length

/-- The function that a call instruction calls. -/
def calleeOf (bcx : FunctionBuilder) (inst : Inst) : Option FuncId :=
  match bcx.insts[inst.index]? with
  | some (.call _ _ callee, _) => (bcx.extFuncs[callee.index]?).map Prod.fst
  | _ => none

/-- A call instruction calls the imported function, and has a result for each return. -/
theorem insCall_spec {bcx : FunctionBuilder} {callee : FuncRef} {id : FuncId} {sig : Signature}
    (h : bcx.extFuncs[callee.index]? = some (id, sig)) (args : List Value) :
    (bcx.insCall callee args).1.calleeOf (bcx.insCall callee args).2 = some id ∧
      ((bcx.insCall callee args).1.instResults (bcx.insCall callee args).2).length =
        sig.returns.length := by
  constructor
  · simp only [insCall, insert, calleeOf, List.getElem?_concat_length, h, Option.map_some]
  · simp only [insCall, insert, instResults, List.getElem?_concat_length, h, Option.elim_some,
      List.length_map, List.length_range]

end FunctionBuilder

/-- `declare_func_in_func`. -/
def JITModule.declareFuncInFunc (module : JITModule) (id : FuncId) (bcx : FunctionBuilder) :
    FunctionBuilder × FuncRef :=
  let sig := ((module.declarations[id.index]?).map FunctionDeclaration.signature).getD ⟨[], []⟩
  ({ bcx with extFuncs := bcx.extFuncs ++ [(id, sig)] }, ⟨bcx.extFuncs.length⟩)

theorem JITModule.getElem?_declareFuncInFunc {module : JITModule} {id : FuncId}
    {decl : FunctionDeclaration} (h : module.declarations[id.index]? = some decl)
    (bcx : FunctionBuilder) :
    (module.declareFuncInFunc id bcx).1.extFuncs[(module.declareFuncInFunc id bcx).2.index]? =
      some (id, decl.signature) := by
  simp only [declareFuncInFunc, h, Option.map_some, Option.getD_some,
    List.getElem?_concat_length]

end LowerIrUtils.Export
