import LowerIrUtils.Export.Defined
import LowerIrUtils.Export.Expr

/-!
# Functions that call each other

Functions are defined in one module one after the other, and a body may import any function
that is declared by then, be it one of the host, one that is defined already, or one that is to
be defined later or never is.  Declarations may stand in between, and any of this may fail.

Whatever the order, a call and the function it calls agree (`linked_calls_agree`): a caller imports
its callee with the signature the module has for it, and the module keeps to that signature.
-/

namespace LowerIrUtils.Export

open Clif

/-! ## Bodies -/

/-- What is relied on of a module: declaring and defining only ever adds declarations, and a
function that could be declared has the name and the signature it was declared with. -/
structure IsModule {E : Type} (impl : ModuleImpl JITModule E) : Prop where
  declares : ∀ {module module' : JITModule} {name : String} {linkage : Linkage} {sig : Signature}
    {id : FuncId}, impl.declareFunction module name linkage sig = (module', .ok id) →
    module'.declarations[id.index]? = some ⟨name, sig⟩
  extends_declare : ∀ (module : JITModule) (name : String) (linkage : Linkage) (sig : Signature),
    module.Extends (impl.declareFunction module name linkage sig).1
  extends_define : ∀ (module : JITModule) (id : FuncId) (ctx : Context),
    module.Extends (impl.defineFunction module id ctx).1

theorem IsModule.extends_of_declare {E : Type} {impl : ModuleImpl JITModule E} (h : IsModule impl)
    {module module' : JITModule} {name : String} {linkage : Linkage} {sig : Signature}
    {r : Except E FuncId} (hdeclare : impl.declareFunction module name linkage sig = (module', r)) :
    module.Extends module' := by
  have hextends := h.extends_declare module name linkage sig
  rwa [hdeclare] at hextends

/-- The functions the builder has imported are declared with the signatures it knows. -/
def Imports (module : JITModule) (bcx : TypedBuilder) : Prop :=
  ∀ callee ∈ bcx.extFuncs, ∃ decl, module.declarations[callee.1.index]? = some decl ∧
    decl.signature = callee.2

/-- `Links sig bcx module bcx' module'`: what a body of signature `sig` may do.  It appends
well-typed instructions, imports functions that are declared, and declares functions. -/
inductive Links (sig : Signature) (bcx : TypedBuilder) (module : JITModule) :
    TypedBuilder → JITModule → Prop
  | refl : Links sig bcx module bcx module
  | insert {bcx' : TypedBuilder} {module' : JITModule} {data : InstructionData} {tys : List Ty}
      (h : Links sig bcx module bcx' module') (hterm : data.isTerminator = false)
      (huses : Uses bcx' data) (htyping : InstTyping (bcx'.func sig) data tys) :
      Links sig bcx module (bcx'.insert data tys).1 module'
  | declareFuncInFunc {bcx' : TypedBuilder} {module' : JITModule} {id : FuncId}
      {decl : FunctionDeclaration} (h : Links sig bcx module bcx' module')
      (hdecl : module'.declarations[id.index]? = some decl) :
      Links sig bcx module (bcx'.declareFuncInFunc module' id).1 module'
  | declare {bcx' : TypedBuilder} {module' module'' : JITModule}
      (h : Links sig bcx module bcx' module') (hext : module'.Extends module'') :
      Links sig bcx module bcx' module''

section

variable {sig : Signature} {bcx bcx' : TypedBuilder} {module module' : JITModule}

theorem Imports.mono (h : Imports module bcx) (hext : module.Extends module') :
    Imports module' bcx := by
  intro callee hcallee
  obtain ⟨decl, hdecl, hsig⟩ := h callee hcallee
  exact ⟨decl, hext.getElem?_declarations hdecl, hsig⟩

namespace Links

theorem builds (h : Links sig bcx module bcx' module') : Builds sig bcx bcx' := by
  induction h with
  | refl => exact .refl
  | insert h hterm huses htyping ih => exact .insert ih hterm huses htyping
  | declareFuncInFunc h hdecl ih => exact .declare ih _
  | declare h hext ih => exact ih

theorem extends_module (h : Links sig bcx module bcx' module') : module.Extends module' := by
  induction h with
  | refl => exact .refl module
  | insert h hterm huses htyping ih => exact ih
  | declareFuncInFunc h hdecl ih => exact ih
  | declare h hext ih => exact ih.trans hext

theorem imports (h : Links sig bcx module bcx' module') (hbcx : Imports module bcx) :
    Imports module' bcx' := by
  induction h with
  | refl => exact hbcx
  | insert h hterm huses htyping ih => exact ih
  | @declareFuncInFunc bcx' module' id decl h hdecl ih =>
      intro callee hcallee
      rcases List.mem_append.mp hcallee with hcallee | hcallee
      · exact ih callee hcallee
      · cases List.mem_singleton.mp hcallee
        refine ⟨decl, hdecl, ?_⟩
        rw [hdecl]
        rfl
  | declare h hext ih => exact ih.mono hext

end Links

end

/-! ## Sessions -/

/-- A function that has been defined, and the builder that was finished for it. -/
structure Defined where
  id : FuncId
  name : String
  sig : Signature
  bcx : TypedBuilder
  returns : List Value

/-- The function that was handed to the module. -/
def Defined.func (f : Defined) : Function := f.bcx.build f.sig f.returns

/-- `Session impl module₀ fs module`: starting with `module₀` functions have been declared and
defined, successfully or not, and these are the ones defined.  Of the body of a definition that
fails it is only asked that it keeps what is declared. -/
inductive Session {E : Type} (impl : ModuleImpl JITModule E) (module₀ : JITModule) :
    List Defined → JITModule → Prop
  | start : Session impl module₀ [] module₀
  | declareFunction {fs : List Defined} {module : JITModule} (h : Session impl module₀ fs module)
      (name : String) (linkage : Linkage) (sig : Signature) :
      Session impl module₀ fs (impl.declareFunction module name linkage sig).1
  | defineFunction {R : Type} [IntoReturns R] {fs : List Defined}
      {module declared module₁ module' : JITModule} {name : String} {linkage : Linkage}
      {sig : Signature}
      {body : TypedBuilder → JITModule → List Value → TypedBuilder × JITModule × R}
      {id : FuncId} {bcx : TypedBuilder} {returns : R} (h : Session impl module₀ fs module)
      (hdeclare : impl.declareFunction module name linkage sig = (declared, .ok id))
      (hbody : body (.entry sig) declared (entryParams sig) = (bcx, module₁, returns))
      (hlinks : Links sig (.entry sig) declared bcx module₁)
      (hdefine : defineFunction impl module name linkage sig body = (module', .ok id)) :
      Session impl module₀ (⟨id, name, sig, bcx, intoReturns returns⟩ :: fs) module'
  | defineFails {R : Type} [IntoReturns R] {fs : List Defined} {module module' : JITModule}
      {name : String} {linkage : Linkage} {sig : Signature}
      {body : TypedBuilder → JITModule → List Value → TypedBuilder × JITModule × R} {e : E}
      (h : Session impl module₀ fs module)
      (hextends : ∀ declared : JITModule,
        declared.Extends (body (.entry sig) declared (entryParams sig)).2.1)
      (hdefine : defineFunction impl module name linkage sig body = (module', .error e)) :
      Session impl module₀ fs module'

section

variable {E R : Type} [IntoReturns R] {impl : ModuleImpl JITModule E} {module : JITModule}
  {name : String} {linkage : Linkage} {sig : Signature}
  {body : TypedBuilder → JITModule → List Value → TypedBuilder × JITModule × R}

/-- The module that defining a function leaves is the one the last step leaves. -/
theorem fst_defineFunction {declared module₁ : JITModule} {id : FuncId} {bcx : TypedBuilder}
    {returns : R} (hdeclare : impl.declareFunction module name linkage sig = (declared, .ok id))
    (hbody : body (.entry sig) declared (entryParams sig) = (bcx, module₁, returns)) :
    (defineFunction impl module name linkage sig body).1 =
      (impl.defineFunction module₁ id ⟨bcx.build sig (intoReturns returns), false, none⟩).1 := by
  simp only [defineFunction, declareAndBuild, hdeclare, hbody]
  rcases impl.defineFunction module₁ id _ with ⟨module', ctx, _ | _⟩ <;> rfl

variable (module name linkage) in
/-- Defining a function keeps what is declared, also where it fails. -/
theorem extends_defineFunction (himpl : IsModule impl)
    (hextends : ∀ declared : JITModule,
      declared.Extends (body (.entry sig) declared (entryParams sig)).2.1) :
    module.Extends (defineFunction impl module name linkage sig body).1 := by
  rcases hdeclare : impl.declareFunction module name linkage sig with ⟨declared, e | id⟩
  · simp only [defineFunction, declareAndBuild, hdeclare]
    exact himpl.extends_of_declare hdeclare
  · have hdeclared := himpl.extends_of_declare hdeclare
    rw [fst_defineFunction hdeclare rfl]
    exact (hdeclared.trans (hextends declared)).trans (himpl.extends_define _ _ _)

end

/-- What a module keeps of a function that was defined: its declaration, and those of the
functions it imports. -/
structure Kept (module : JITModule) (f : Defined) : Prop where
  declared : module.declarations[f.id.index]? = some ⟨f.name, f.sig⟩
  builds : Builds f.sig (.entry f.sig) f.bcx
  imports : Imports module f.bcx

theorem Kept.mono {module module' : JITModule} {f : Defined} (h : Kept module f)
    (hext : module.Extends module') : Kept module' f where
  declared := hext.getElem?_declarations h.declared
  builds := h.builds
  imports := h.imports.mono hext

/-- Every function that was defined is kept by all that follows. -/
theorem Session.kept {E : Type} {impl : ModuleImpl JITModule E} {module₀ module : JITModule}
    {fs : List Defined} (himpl : IsModule impl) (h : Session impl module₀ fs module) :
    ∀ f ∈ fs, Kept module f := by
  induction h with
  | start => exact fun f hf ↦ absurd hf List.not_mem_nil
  | declareFunction h name linkage sig ih =>
      exact fun f hf ↦ (ih f hf).mono (himpl.extends_declare _ name linkage sig)
  | @defineFunction R _ fs module declared module₁ module' name linkage sig body id bcx returns h
      hdeclare hbody hlinks hdefine ih =>
      have hdeclared := himpl.extends_of_declare hdeclare
      have hafter := himpl.extends_define module₁ id
        ⟨bcx.build sig (intoReturns returns), false, none⟩
      rw [← fst_defineFunction hdeclare hbody, hdefine] at hafter
      have hbuilt := hlinks.extends_module
      intro f hf
      rcases List.mem_cons.mp hf with rfl | hf
      · refine Kept.mono ⟨?_, hlinks.builds, hlinks.imports ?_⟩ hafter
        · exact hbuilt.getElem?_declarations (himpl.declares hdeclare)
        · exact fun callee hcallee ↦ absurd hcallee List.not_mem_nil
      · exact (ih f hf).mono ((hdeclared.trans hbuilt).trans hafter)
  | @defineFails R _ fs module module' name linkage sig body e h hextends hdefine ih =>
      have hkeeps := extends_defineFunction module name linkage himpl hextends
      rw [hdefine] at hkeeps
      exact fun f hf ↦ (ih f hf).mono hkeeps

/-! ## Calls -/

/-- A call is an instruction of the body. -/
theorem exists_of_call {sig : Signature} {bcx : TypedBuilder} {returns : List Value} {inst : Inst}
    {args : List Value} {callee : FuncRef}
    (h : (bcx.build sig returns).data inst = .call .call args callee) :
    ∃ results, bcx.insts[inst.index]? = some (.call .call args callee, results) ∧
      (bcx.build sig returns).dfg.instResults inst = results := by
  rcases Nat.lt_trichotomy inst.index bcx.insts.length with hlt | heq | hgt
  · obtain ⟨data, results, hget, hdata, hresults⟩ := Regular.exists_of_lt sig returns hlt
    cases hdata.symm.trans h
    exact ⟨results, hget, hresults⟩
  · -- the return
    have hreturn : (bcx.build sig returns).data inst = .multiAry .return_ returns := by
      rw [show inst = ⟨bcx.insts.length⟩ from congrArg Inst.mk heq]
      exact Regular.data_return
    cases hreturn.symm.trans h
  · have hnone : (bcx.insert (.multiAry .return_ returns) []).1.insts[inst.index]? = none := by
      rw [insts_insert, List.getElem?_eq_none]
      rw [List.length_append, List.length_singleton]
      exact hgt
    have hdata : (bcx.build sig returns).data inst = .other (.other "nop") [] := by
      show ((bcx.insert (.multiAry .return_ returns) []).1.insts[inst.index]?).elim _ Prod.fst = _
      rw [hnone]
      rfl
    cases hdata.symm.trans h

/-- **Calls agree with the functions they call.**  In a module functions are declared and
defined in any order, successfully or not, and the bodies of those that are defined append
well-typed instructions to the entry block and import functions that are declared.  If one of
the functions that were defined calls another, or itself, the call passes values of the types
of the parameters of the callee, and its results have the types of the returns of the callee. -/
theorem linked_calls_agree {E : Type} {impl : ModuleImpl JITModule E} {module₀ module : JITModule}
    {fs : List Defined} (himpl : IsModule impl) (h : Session impl module₀ fs module)
    {f g : Defined} (hf : f ∈ fs) (hg : g ∈ fs) {inst : Inst} {args : List Value}
    {callee : FuncRef} (hcall : f.func.data inst = .call .call args callee)
    (hcallee : (f.bcx.extFuncs[callee.index]?).map Prod.fst = some g.id) :
    args.map f.func.dfg.valueType = g.func.signature.params ∧
      (f.func.dfg.instResults inst).map f.func.dfg.valueType = g.func.signature.returns := by
  have hkept := h.kept himpl f hf
  obtain ⟨results, hget, hresults⟩ := exists_of_call hcall
  have hregular := hkept.builds.regular (regular_entry f.sig)
  -- the callee is imported with the signature it is declared with, which is its own
  obtain ⟨⟨id, sig⟩, himport, rfl⟩ := Option.map_eq_some_iff.mp hcallee
  obtain ⟨decl, hdecl, hsig⟩ := hkept.imports _ (List.mem_of_getElem? himport)
  cases hdecl.symm.trans (h.kept himpl g hg).declared
  have hext : ((f.bcx.func f.sig).dfg.extFuncs callee).signature = g.sig := by
    show ((f.bcx.extFuncs[callee.index]?).elim _ _ : ExtFuncData).signature = _
    rw [himport]
    exact hsig.symm
  have hknown {v : Value} (hv : v.index < f.bcx.numValues) :
      f.func.dfg.valueType v = f.bcx.valueType v := Regular.valueType_build hv
  cases hregular.typed _ _ _ hget with
  | call hargs hreturns htys =>
      constructor
      · refine (List.map_congr_left fun v hv ↦ hknown ?_).trans (hargs.trans (congrArg _ hext))
        exact (hregular.uses _ _ _ hget).operands v hv
      · have hresults' : f.func.dfg.instResults inst = results := hresults
        rw [hresults']
        refine (List.map_congr_left fun v hv ↦ hknown ?_).trans
          (hreturns.trans (congrArg _ hext))
        exact (hregular.known v).mpr (.inr ⟨_, _, _, hget, hv⟩)

/-! ## A pair -/

/-- A `JITModule` is a module; a definition succeeds. -/
def JITModule.impl : ModuleImpl JITModule ModuleError where
  declareFunction module name _ sig :=
    match module.declareFunction name sig with
    | .ok (module, id) => (module, .ok id)
    | .error e => (module, .error e)
  defineFunction module _ ctx := (module, ctx, .ok ())
  isaName _ := "x64"

theorem JITModule.isModule_impl : IsModule JITModule.impl where
  declares := by
    intro module module' name linkage sig id h
    simp only [impl] at h
    split at h
    · rename_i hok
      cases h
      exact (declareFunction_ok hok).2
    · cases h
  extends_declare module name linkage sig := by
    simp only [impl]
    split
    · rename_i hok
      exact (declareFunction_ok hok).1
    · exact .refl module
  extends_define module _ _ := .refl module

namespace Pair

/-- `fn(i64, i64) -> (i64, i64)`. -/
def pairSig : Signature := ⟨[.I64, .I64], [.I64, .I64]⟩

/-- `|bcx, _module, params| [params[1], bcx.ins().imul_imm_s(params[0], 2)]`. -/
def swapAndDouble (bcx : TypedBuilder) (module : JITModule) (params : List Value) :
    TypedBuilder × JITModule × Vector Value 2 :=
  let (bcx, v) := bcx.insBinaryImmS .imul ((params[0]?).getD ⟨0⟩) 2
  (bcx, module, #v[(params[1]?).getD ⟨0⟩, v])

/-- The body that calls `pair` and adds what it returns. -/
def sumPair (pair : FuncId) (bcx : TypedBuilder) (module : JITModule) (params : List Value) :
    TypedBuilder × JITModule × Value :=
  let (bcx, callee) := bcx.declareFuncInFunc module pair
  let (bcx, call) := bcx.insCall callee params
  let values := bcx.instResults call
  let (bcx, v) := bcx.insBinary .iadd ((values[0]?).getD ⟨0⟩) ((values[1]?).getD ⟨0⟩)
  (bcx, module, v)

/-- `fn(i64, i64) -> i64`. -/
def sumSig : Signature := ⟨[.I64, .I64], [.I64]⟩

/-- Where the pair is declared. -/
def declared : JITModule := ⟨.I64, .empty, [⟨"swap_and_double", pairSig⟩]⟩

/-- Where both are. -/
def module : JITModule := ⟨.I64, .empty, [⟨"swap_and_double", pairSig⟩, ⟨"sum_pair", sumSig⟩]⟩

theorem links_swapAndDouble : Links pairSig (.entry pairSig) declared
    (swapAndDouble (.entry pairSig) declared (entryParams pairSig)).1 declared :=
  .insert (.insert .refl rfl ⟨by decide, nofun⟩ (.iconst rfl)) rfl ⟨by decide, nofun⟩
    (.intBinary rfl rfl rfl rfl)

theorem links_sumPair : Links sumSig (.entry sumSig) module
    (sumPair ⟨0⟩ (.entry sumSig) module (entryParams sumSig)).1 module := by
  have hdecl : module.declarations[(⟨0⟩ : FuncId).index]? = some ⟨"swap_and_double", pairSig⟩ := rfl
  have himport := Links.declareFuncInFunc (@Links.refl sumSig (.entry sumSig) module) hdecl
  refine .insert (.insert himport rfl ⟨by decide, ?_⟩ (.call rfl rfl ?_)) rfl ⟨by decide, nofun⟩
    (.intBinary rfl rfl rfl rfl)
  · rintro opcode args f ⟨⟩
    exact Nat.one_pos
  · decide

/-- What `define_function` makes of the two bodies. -/
def pair : Defined :=
  let (bcx, _, returns) := swapAndDouble (.entry pairSig) declared (entryParams pairSig)
  ⟨⟨0⟩, "swap_and_double", pairSig, bcx, intoReturns returns⟩

def sum : Defined :=
  let (bcx, _, returns) := sumPair ⟨0⟩ (.entry sumSig) module (entryParams sumSig)
  ⟨⟨1⟩, "sum_pair", sumSig, bcx, intoReturns returns⟩

theorem defineFunction_pair : defineFunction JITModule.impl (.new ⟨.empty⟩ .I64) "swap_and_double"
    .local_ pairSig swapAndDouble = (declared, .ok ⟨0⟩) := rfl

theorem defineFunction_sum : defineFunction JITModule.impl declared "sum_pair" .export_ sumSig
    (sumPair ⟨0⟩) = (module, .ok ⟨1⟩) := rfl

theorem session : Session JITModule.impl (.new ⟨.empty⟩ .I64) [sum, pair] module := by
  have hpair : Session JITModule.impl (.new ⟨.empty⟩ .I64) [pair] declared :=
    .defineFunction .start rfl rfl links_swapAndDouble defineFunction_pair
  exact .defineFunction hpair rfl rfl links_sumPair defineFunction_sum

end Pair

/-- `sum_pair` passes two integers to `swap_and_double`, and gets two. -/
theorem linked_calls_agree_pair : ∃ inst args, Pair.sum.func.data inst = .call .call args ⟨0⟩ ∧
    args.map Pair.sum.func.dfg.valueType = [.I64, .I64] ∧
      (Pair.sum.func.dfg.instResults inst).map Pair.sum.func.dfg.valueType = [.I64, .I64] := by
  refine ⟨⟨0⟩, [⟨0⟩, ⟨1⟩], rfl, ?_⟩
  exact linked_calls_agree JITModule.isModule_impl Pair.session List.mem_cons_self
    (List.mem_cons_of_mem _ List.mem_cons_self) (g := Pair.pair) rfl rfl

end LowerIrUtils.Export
