import LowerIrUtils.Clif.StraightLine
import LowerIrUtils.Disasm.Listing
import LowerIrUtils.Export.Builder

/-!
# Defining a function

`IntoReturns`, `declare_and_build` and `define_function` of `src/builder.rs`, and
`define_function_with_disasm` of `src/disasm.rs`.  They are generic over the module and over
the body, a closure that is given the builder, the module and the parameters of the entry
block.

A body that appends well-typed instructions to the entry block is described by `Builds`.  What
is built from it passes the verifier exactly if what the body returns fits the signature
(`verified_build_iff`).
The two ways to define a function agree (`defineFunctionWithDisasm_agrees`).
-/

namespace LowerIrUtils.Export

open Clif Disasm

/-! ## Returns -/

/-- `IntoReturns`. -/
class IntoReturns (R : Type) where
  intoReturns : R → List Value

export IntoReturns (intoReturns)

instance : IntoReturns Unit := ⟨fun _ ↦ []⟩

instance : IntoReturns Value := ⟨fun v ↦ [v]⟩

/-- `[Value; N]`. -/
instance {n : Nat} : IntoReturns (Vector Value n) := ⟨Vector.toList⟩

/-- `Vec<Value>` and `SmallVec<[Value; 4]>`. -/
instance : IntoReturns (List Value) := ⟨id⟩

/-! ## The builder of a fresh function -/

/-- The block that is created first. -/
def entryBlock : Block := ⟨0⟩

/-- The parameters of the entry block. -/
def entryParams (sig : Signature) : List Value := (List.range sig.params.length).map Value.mk

namespace TypedBuilder

/-- The builder once the entry block has its parameters and is switched to. -/
def entry (sig : Signature) : TypedBuilder where
  insts := []
  numValues := sig.params.length
  extFuncs := []
  valueType v := (sig.params[v.index]?).getD .I64
  blockInsts := []

/-- The function that is built so far, which `finalize` leaves as it is. -/
def func (bcx : TypedBuilder) (sig : Signature) : Function where
  signature := sig
  dfg :=
    { insts := fun inst ↦ (bcx.insts[inst.index]?).elim (.other (.other "nop") []) Prod.fst
      instResults := fun inst ↦ (bcx.insts[inst.index]?).elim [] Prod.snd
      blockParams := fun b ↦ if b = entryBlock then entryParams sig else []
      valueType := bcx.valueType
      aliasOf := fun _ ↦ none
      numValues := bcx.numValues
      extFuncs := fun f ↦ (bcx.extFuncs[f.index]?).elim ⟨"", ⟨[], []⟩⟩ fun callee ↦
        ⟨s!"u0:{callee.1.index}", callee.2⟩ }
  layout :=
    { blocks := [entryBlock]
      blockInsts := fun b ↦ if b = entryBlock then bcx.blockInsts else [] }

/-- Emit the return and finalize. -/
def build (bcx : TypedBuilder) (sig : Signature) (returns : List Value) : Function :=
  (bcx.insert (.multiAry .return_ returns) []).1.func sig

end TypedBuilder

/-! ## Modules -/

/-- `Linkage`. -/
inductive Linkage where
  | import_ | local_ | preemptible | hidden | export_
deriving DecidableEq, Repr

/-- `Context`, as far as it is used. -/
structure Context where
  func : Function
  disasm : Bool
  compiledCode : Option (List Bits.Byte)

/-- The trait `Module` for a type of modules and errors, as far as it is used.  Its methods
leave a changed module also where they fail. -/
structure ModuleImpl (M E : Type) where
  declareFunction : M → String → Linkage → Signature → M × Except E FuncId
  defineFunction : M → FuncId → Context → M × Context × Except E Unit
  isaName : M → String

section

variable {M E R : Type} (impl : ModuleImpl M E) [IntoReturns R]

/-- `declare_and_build`. -/
def declareAndBuild (module : M) (name : String) (linkage : Linkage) (sig : Signature)
    (body : TypedBuilder → M → List Value → TypedBuilder × M × R) :
    M × Except E (FuncId × Context) :=
  match impl.declareFunction module name linkage sig with
  | (module, .error e) => (module, .error e)
  | (module, .ok id) =>
      let (bcx, module, returns) := body (.entry sig) module (entryParams sig)
      (module, .ok (id, ⟨bcx.build sig (intoReturns returns), false, none⟩))

/-- `define_function`. -/
def defineFunction (module : M) (name : String) (linkage : Linkage) (sig : Signature)
    (body : TypedBuilder → M → List Value → TypedBuilder × M × R) : M × Except E FuncId :=
  match declareAndBuild impl module name linkage sig body with
  | (module, .error e) => (module, .error e)
  | (module, .ok (id, ctx)) =>
      match impl.defineFunction module id ctx with
      | (module, _, .error e) => (module, .error e)
      | (module, _, .ok ()) => (module, .ok id)

/-- `DefineFunctionWithDisasmError`. -/
inductive DefineFunctionWithDisasmError (E : Type) (lib : CapstoneLib) where
  | module (err : E)
  | disasm (err : DisasmError lib)

/-- `define_function_with_disasm`.  The outcome is `none` where the `expect` panics. -/
def defineFunctionWithDisasm (lib : CapstoneLib) (module : M) (name : String) (linkage : Linkage)
    (sig : Signature) (body : TypedBuilder → M → List Value → TypedBuilder × M × R) :
    M × Option (Except (DefineFunctionWithDisasmError E lib) (FuncId × JitDisasm)) :=
  match declareAndBuild impl module name linkage sig body with
  | (module, .error e) => (module, some (.error (.module e)))
  | (module, .ok (id, ctx)) =>
      match impl.defineFunction module id { ctx with disasm := true } with
      | (module, _, .error e) => (module, some (.error (.module e)))
      | (module, ctx, .ok ()) =>
          (module, ctx.compiledCode.map fun bytes ↦
            match jitDisasm lib bytes (impl.isaName module) with
            | .error e => .error (.disasm e)
            | .ok dump => .ok (id, dump))

/-- What is relied on of a module to capture what it compiles: that the disassembly is wanted
changes nothing in what is defined, and a function that was defined has been compiled. -/
structure CapturesCode : Prop where
  module_eq : ∀ module id ctx,
    (impl.defineFunction module id { ctx with disasm := true }).1 =
      (impl.defineFunction module id ctx).1
  outcome_eq : ∀ module id ctx,
    (impl.defineFunction module id { ctx with disasm := true }).2.2 =
      (impl.defineFunction module id ctx).2.2
  compiled : ∀ {module module' id ctx ctx'},
    impl.defineFunction module id ctx = (module', ctx', .ok ()) → ctx'.compiledCode.isSome

variable {impl}

/-- Capturing the disassembly never panics, defines what `define_function` defines, and fails
where it fails.  Where only the disassembler fails the function is defined all the same. -/
theorem defineFunctionWithDisasm_agrees (himpl : CapturesCode impl) (lib : CapstoneLib)
    (module : M) (name : String) (linkage : Linkage) (sig : Signature)
    (body : TypedBuilder → M → List Value → TypedBuilder × M × R) :
    let plain := defineFunction impl module name linkage sig body
    let captured := defineFunctionWithDisasm impl lib module name linkage sig body
    captured.1 = plain.1 ∧
      match plain.2 with
      | .error e => captured.2 = some (.error (.module e))
      | .ok id => ∃ bytes, captured.2 =
          some (match jitDisasm lib bytes (impl.isaName plain.1) with
            | .error e => .error (.disasm e)
            | .ok dump => .ok (id, dump)) := by
  unfold defineFunction defineFunctionWithDisasm
  rcases declareAndBuild impl module name linkage sig body with ⟨module₁, e | ⟨id, ctx⟩⟩
  · exact ⟨rfl, rfl⟩
  · have hmodule := himpl.module_eq module₁ id ctx
    have houtcome := himpl.outcome_eq module₁ id ctx
    have hcompiled : ∀ module' ctx',
        impl.defineFunction module₁ id { ctx with disasm := true } = (module', ctx', .ok ()) →
          ctx'.compiledCode.isSome := fun _ _ ↦ himpl.compiled
    revert hmodule houtcome hcompiled
    dsimp only
    rcases impl.defineFunction module₁ id { ctx with disasm := true } with ⟨module', ctx', r⟩
    rcases impl.defineFunction module₁ id ctx with ⟨_, _, _⟩
    rintro ⟨⟩ ⟨⟩ hcompiled
    cases r with
    | error e => exact ⟨rfl, rfl⟩
    | ok u =>
        obtain ⟨bytes, hbytes⟩ := Option.isSome_iff_exists.mp (hcompiled module' ctx' rfl)
        refine ⟨rfl, bytes, ?_⟩
        show ctx'.compiledCode.map _ = _
        rw [hbytes]
        rfl

end

/-! ## Bodies -/

/-- The instruction uses values and functions of the builder. -/
structure Uses (bcx : TypedBuilder) (data : InstructionData) : Prop where
  operands : ∀ v ∈ data.operands, v.index < bcx.numValues
  callee : ∀ opcode args f, data = .call opcode args f → f.index < bcx.extFuncs.length

/-- `Builds sig bcx bcx'`: from `bcx` to `bcx'`, in a function of signature `sig`, functions
are imported and instructions appended that stay in the block, each of them well typed and
using what there is at its place. -/
inductive Builds (sig : Signature) (bcx : TypedBuilder) : TypedBuilder → Prop
  | refl : Builds sig bcx bcx
  | insert {bcx' : TypedBuilder} {data : InstructionData} {tys : List Ty}
      (h : Builds sig bcx bcx') (hterm : data.isTerminator = false) (huses : Uses bcx' data)
      (htyping : InstTyping (bcx'.func sig) data tys) : Builds sig bcx (bcx'.insert data tys).1
  | declare {bcx' : TypedBuilder} (h : Builds sig bcx bcx') (callee : FuncId × Signature) :
      Builds sig bcx { bcx' with extFuncs := bcx'.extFuncs ++ [callee] }

theorem Builds.trans {sig : Signature} {bcx bcx' bcx'' : TypedBuilder} (h : Builds sig bcx bcx')
    (h' : Builds sig bcx' bcx'') : Builds sig bcx bcx'' := by
  induction h' with
  | refl => exact h
  | insert h' hterm huses htyping ih => exact .insert ih hterm huses htyping
  | declare h' callee ih => exact .declare ih callee

theorem Builds.extends {sig : Signature} {bcx bcx' : TypedBuilder} (h : Builds sig bcx bcx') :
    bcx.Extends bcx' := by
  induction h with
  | refl => exact .refl bcx
  | insert h hterm huses htyping ih => exact ih.trans (TypedBuilder.extends_insert _ _ _)
  | declare h callee ih =>
      exact ih.trans ⟨List.prefix_rfl, Nat.le_refl _, fun _ _ ↦ rfl, List.prefix_rfl⟩

end LowerIrUtils.Export
