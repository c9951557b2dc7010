import LowerIrUtils.Export.Macro

/-!
# The signature of the helper and the ABI of the function

The helper `signature` resolves the types of the function once more, below its generic
`M`.  A type that resolves in both places means the same up to what stands for `M`
(`resolve_helper`).  A generic is `Sized`, so a pointer to `M` is thin to the helper, also
where the function has a pointer to an unsized type of that name: this is the one way in
which a helper that type-checks can be wrong.

That is so for the types the model has: names are not qualified, and parameters have no
attributes.
-/

namespace LowerIrUtils.Export

open Clif

variable {scope : Scope} {ptrTy : Ty}

/-- What the function itself means by the name `M`. -/
def userM (scope : Scope) : RustTy Empty :=
  ((TypeExpr.path "M" (n := 0) Fin.elim0).resolve scope noGenerics).getD (.tuple (n := 0) Fin.elim0)

/-- The helper's reading of a type gives the function's with `M` replaced. -/
theorem resolve_helper {ty : TypeExpr} {t : RustTy Unit} {t' : RustTy Empty}
    (ht : ty.resolve scope helperGenerics = some t) (ht' : ty.resolve scope noGenerics = some t') :
    t' = t.bind fun _ ↦ userM scope := by
  refine TypeExpr.resolve_bind (fun _ _ ↦ rfl) ?_ ht ht'
  intro name v hname args u hu
  have hM : name = "M" := by
    unfold helperGenerics at hname
    split at hname
    · assumption
    · cases hname
  have hargs : args = Fin.elim0 := funext fun i ↦ i.elim0
  have hu' : (TypeExpr.path name args).resolve scope noGenerics = some u := hu
  rw [userM, ← hM, ← hargs, hu']
  rfl

/-- To the helper the type is a pointer or reference to something that ends in its generic
`M`, and the `M` of the function is unsized. -/
def ShadowsUnsized (scope : Scope) (ty : TypeExpr) : Prop :=
  (userM scope).isSized = false ∧
    ∃ t, ty.resolve scope helperGenerics = some t ∧ t.PointsTo ()

theorem lanes_eq_some_iff {V : Type} {generics : String → Option V} {ty : TypeExpr}
    {ls : List Ty} : lanes scope generics ptrTy ty = some ls ↔
      ∃ t, ty.resolve scope generics = some t ∧ t.jitParam ptrTy = some ls := by
  simp only [lanes, Option.bind_eq_bind, Option.bind_eq_some_iff]

/-- One type: the function has the parameters of the helper, or none if `M` shadows an
unsized type. -/
theorem lanes_helper {ty : TypeExpr} {ls : List Ty}
    (hdef : (ty.resolve scope noGenerics).isSome)
    (h : lanes scope helperGenerics ptrTy ty = some ls) :
    lanes scope noGenerics ptrTy ty = some ls ∧ ¬ ShadowsUnsized scope ty ∨
      lanes scope noGenerics ptrTy ty = none ∧ ShadowsUnsized scope ty := by
  obtain ⟨t, ht, hlanes⟩ := lanes_eq_some_iff.mp h
  obtain ⟨t', ht'⟩ := Option.isSome_iff_exists.mp hdef
  obtain rfl := resolve_helper ht ht'
  have hnative : lanes scope noGenerics ptrTy ty =
      (t.bind fun _ ↦ userM scope).jitParam ptrTy := by
    rw [lanes, ht']
    rfl
  rw [hnative]
  rcases RustTy.jitParam_bind (fun _ ↦ userM scope) hlanes with ⟨hsome, hsized⟩ | ⟨hnone, v, hv, hm⟩
  · refine .inl ⟨hsome, ?_⟩
    rintro ⟨hm, u, hu, hpoints⟩
    rw [ht] at hu
    cases hu
    rw [hsized () hpoints] at hm
    cases hm
  · exact .inr ⟨hnone, hm, t, ht, hv⟩

/-- A list of types. -/
theorem pushParams_helper {tys : List TypeExpr} {ls : List Ty}
    (hdef : ∀ ty ∈ tys, (ty.resolve scope noGenerics).isSome)
    (h : pushParams scope helperGenerics ptrTy tys = some ls) :
    pushParams scope noGenerics ptrTy tys = some ls ∧ (∀ ty ∈ tys, ¬ ShadowsUnsized scope ty) ∨
      pushParams scope noGenerics ptrTy tys = none ∧ ∃ ty ∈ tys, ShadowsUnsized scope ty := by
  induction tys generalizing ls with
  | nil =>
      refine .inl ⟨h, ?_⟩
      intro ty hty
      cases hty
  | cons ty tys ih =>
      simp only [pushParams, Option.bind_eq_bind, Option.bind_eq_some_iff] at h
      obtain ⟨first, hfirst, rest, hrest, hls⟩ := h
      have hty := lanes_helper (hdef ty List.mem_cons_self) hfirst
      have htys := ih (fun u hu ↦ hdef u (List.mem_cons_of_mem ty hu)) hrest
      rcases hty with ⟨hnative, hok⟩ | ⟨hnative, hbad⟩
      · rcases htys with ⟨hnatives, hoks⟩ | ⟨hnatives, u, hu, hbad⟩
        · refine .inl ⟨?_, List.forall_mem_cons.mpr ⟨hok, hoks⟩⟩
          simp only [pushParams, hnative, hnatives, Option.bind_eq_bind, Option.bind_some, hls]
        · refine .inr ⟨?_, u, List.mem_cons_of_mem ty hu, hbad⟩
          simp only [pushParams, hnative, hnatives, Option.bind_eq_bind, Option.bind_some,
            Option.bind_none]
      · refine .inr ⟨?_, ty, List.mem_cons_self, hbad⟩
        simp only [pushParams, hnative, Option.bind_eq_bind, Option.bind_none]

/-! ## The return type -/

/-- The macro takes the return type as it is written, unless that is `()`. -/
theorem returnType_cases (ty : TypeExpr) :
    (ReturnType.type ty).returnType = some ty ∨
      (ReturnType.type ty).returnType = none ∧
        ∃ elems : Fin 0 → TypeExpr, ty = .tuple elems := by
  cases ty with
  | tuple elems =>
      rename_i n
      cases n with
      | zero => exact .inr ⟨rfl, elems, rfl⟩
      | succ n => exact .inl rfl
  | _ => exact .inl rfl

/-- A return type written `()` contributes nothing, like one that is missing. -/
theorem lanes_unit {V : Type} (generics : String → Option V) (elems : Fin 0 → TypeExpr) :
    lanes scope generics ptrTy (.tuple elems) = some [] := by
  refine lanes_eq_some_iff.mpr ⟨.tuple Fin.elim0, ?_, rfl⟩
  refine TypeExpr.resolve_tuple.mpr ⟨Fin.elim0, ?_, rfl⟩
  intro i
  exact i.elim0

/-- What the macro has found as the return type contributes what the written one does. -/
theorem pushParams_returnType {V : Type} (generics : String → Option V) (output : ReturnType) :
    pushParams scope generics ptrTy output.returnType.toList =
      pushParams scope generics ptrTy output.types := by
  cases output with
  | default => rfl
  | type ty =>
      rcases returnType_cases ty with hsome | ⟨hnone, elems, rfl⟩
      · rw [hsome]
        rfl
      · rw [hnone]
        simp only [ReturnType.types, pushParams, lanes_unit, Option.bind_eq_bind, Option.bind_some,
          List.append_nil]
        rfl

/-! ## Agreement -/

/-- The helper in terms of the types as they are written. -/
theorem signature_eq_some_iff {input : ItemFn} {out : Expansion} {sig : Signature}
    (hout : expandJitExport input = .ok out) :
    out.signature scope ptrTy = some sig ↔
      pushParams scope helperGenerics ptrTy input.paramTypes = some sig.params ∧
        pushParams scope helperGenerics ptrTy input.output.types = some sig.returns := by
  obtain ⟨-, hparams, hreturn⟩ := expandJitExport_ok hout
  obtain ⟨params, returns⟩ := sig
  simp only [Expansion.signature, hparams, hreturn, pushParams_returnType, Option.bind_eq_bind,
    Option.bind_eq_some_iff, Option.some.injEq, Signature.mk.injEq]
  constructor
  · rintro ⟨_, hp, _, hr, rfl, rfl⟩
    exact ⟨hp, hr⟩
  · rintro ⟨hp, hr⟩
    exact ⟨_, hp, _, hr, rfl, rfl⟩

/-- **The ABI of the helper.**  Where the types of an accepted function resolve and the helper
`signature` type-checks, its parameters and returns are those that `JitParam` gives to the
types of the function if and only if none of them is, to the helper, a pointer to something
that ends in its own generic `M`, in the place of an unsized type of that name.  Attributes of
parameters, `super::`, `self::` and other qualified paths, and generics of the function are not
in the model. -/
theorem signature_agrees_iff {input : ItemFn} {out : Expansion} {scope : Scope} {ptrTy : Ty}
    {sig : Signature} (hout : expandJitExport input = .ok out)
    (hdef : ∀ ty ∈ input.types, (ty.resolve scope noGenerics).isSome)
    (hsig : out.signature scope ptrTy = some sig) :
    input.nativeSignature scope ptrTy = some sig ↔
      ∀ ty ∈ input.types, ¬ ShadowsUnsized scope ty := by
  obtain ⟨hparams, hreturns⟩ := (signature_eq_some_iff hout).mp hsig
  have hp := pushParams_helper (fun ty hty ↦ hdef ty (List.mem_append_left _ hty)) hparams
  have hr := pushParams_helper (fun ty hty ↦ hdef ty (List.mem_append_right _ hty)) hreturns
  rcases hp with ⟨hnative, hok⟩ | ⟨hnative, ty, hty, hbad⟩
  · rcases hr with ⟨hnatives, hoks⟩ | ⟨hnatives, ty, hty, hbad⟩
    · refine iff_of_true ?_ ?_
      · simp only [ItemFn.nativeSignature, hnative, hnatives, Option.bind_eq_bind,
          Option.bind_some]
      · intro ty hty
        rcases List.mem_append.mp hty with hty | hty
        · exact hok ty hty
        · exact hoks ty hty
    · refine iff_of_false ?_ ?_
      · simp [ItemFn.nativeSignature, hnative, hnatives]
      · intro hall
        exact hall ty (List.mem_append_right _ hty) hbad
  · refine iff_of_false ?_ ?_
    · simp [ItemFn.nativeSignature, hnative]
    · intro hall
      exact hall ty (List.mem_append_left _ hty) hbad

/-! ## A type named `M` -/

/-- `fn store(p: *const M)`. -/
def storeThroughM : ItemFn where
  ident := "store"
  asyncness := false
  abi := none
  inputs := [.typed (.ptr false (.path "M" (n := 0) Fin.elim0))]
  output := .default

/-- The scope of a module with `type M = body`. -/
def aliasM (body : RustTy (Fin 0)) : Scope := fun name ↦
  if name = "M" then some (.typeAlias 0 body) else none

theorem resolves_storeThroughM {body : RustTy (Fin 0)} :
    ∀ ty ∈ storeThroughM.types, (ty.resolve (aliasM body) noGenerics).isSome := by
  intro ty hty
  obtain rfl := List.mem_singleton.mp hty
  rfl

/-- With `type M = i32` the helper is right. -/
theorem signature_agrees_storeThroughM :
    storeThroughM.nativeSignature (aliasM (.scalar .i32)) .I64 = some ⟨[.I64], []⟩ := by
  refine Iff.mpr (signature_agrees_iff rfl resolves_storeThroughM rfl) ?_
  rintro ty - ⟨hunsized, -⟩
  cases hunsized

/-- With `type M = str` it takes the two words of a `*const str` for one. -/
theorem storeThroughM_fat :
    ¬ ∀ (input : ItemFn) (out : Expansion) (scope : Scope) (ptrTy : Ty) (sig : Signature),
      expandJitExport input = .ok out →
      (∀ ty ∈ input.types, (ty.resolve scope noGenerics).isSome) →
      out.signature scope ptrTy = some sig → input.nativeSignature scope ptrTy = some sig := by
  intro h
  have hagree := h storeThroughM storeThroughM.withAbi.expansion (aliasM .str) .I64
    ⟨[.I64], []⟩ rfl resolves_storeThroughM rfl
  have hnative : storeThroughM.nativeSignature (aliasM .str) .I64 = none := rfl
  rw [hnative] at hagree
  cases hagree

end LowerIrUtils.Export
