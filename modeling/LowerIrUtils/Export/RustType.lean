import LowerIrUtils.Clif.Types
import Mathlib.Data.Fin.Basic

/-!
# Types of an exported function

A type is written as an expression over names (`TypeExpr`, after `syn::Type`) and means a
`RustTy` in a scope.  What a scope has for a name is resolved already: an alias is a type
with holes for its arguments, and a user's own type brings how sized it is and what its
`JitParam` impl appends.  The generics an expression stands under are resolved first and
shadow the scope; a `RustTy V` may contain the generics `V`.

`jitParam` is the trait `JitParam` of `src/abi.rs`.
-/

namespace LowerIrUtils.Export

open Clif

/-! ## Resolved types -/

/-- The primitive types with a `JitParam` impl. -/
inductive Scalar where
  | i8 | u8 | i16 | u16 | i32 | u32 | i64 | u64 | f32 | f64 | bool | usize | isize
deriving DecidableEq, Repr

/-- The Cranelift type of a scalar, where pointers have the type `ptrTy`. -/
def Scalar.lane (ptrTy : Ty) : Scalar → Ty
  | i8 | u8 | bool => .I8
  | i16 | u16 => .I16
  | i32 | u32 => .I32
  | i64 | u64 => .I64
  | f32 => .F32
  | f64 => .F64
  | usize | isize => ptrTy

/-- The pointer types `*const T`, `*mut T`, `&T` and `&mut T`. -/
inductive PointerKind where
  | constPtr | mutPtr | sharedRef | mutRef
deriving DecidableEq, Repr

/-- How sized a user's type with `arity` arguments is.  A struct is as sized as its last
field, which may be of the type of an argument. -/
inductive Sizedness (arity : Nat) where
  | sized
  | unsized
  | asArg (i : Fin arity)

/-- A type the user has defined, or one instance of a generic type whose `JitParam` impl looks
at the arguments. -/
structure AdtDef where
  name : String
  arity : Nat
  sizedness : Sizedness arity
  /-- The user's own `JitParam` impl.  As the trait demands, it appends one parameter or
  none; which, may depend on the type of pointers.  It is not given the arguments of the type,
  so an impl that delegates to one of them has an `AdtDef` for each instance. -/
  jitParam : Option (Ty → Option Ty)

/-- A resolved type in which the generics `V` may occur. -/
inductive RustTy (V : Type) where
  | var (v : V)
  | scalar (s : Scalar)
  | str
  | traitObject (trait : String)
  | fnPointer
  | slice (elem : RustTy V)
  | array (elem : RustTy V)
  | pointer (kind : PointerKind) (pointee : RustTy V)
  | tuple {n : Nat} (elems : Fin n → RustTy V)
  | adt (adt : AdtDef) (args : Fin adt.arity → RustTy V)

namespace RustTy

variable {V W X : Type}

/-- Put types in the place of the generics. -/
def bind (σ : V → RustTy W) : RustTy V → RustTy W
  | var v => σ v
  | scalar s => scalar s
  | str => str
  | traitObject trait => traitObject trait
  | fnPointer => fnPointer
  | slice elem => slice (elem.bind σ)
  | array elem => array (elem.bind σ)
  | pointer kind pointee => pointer kind (pointee.bind σ)
  | tuple elems => tuple fun i ↦ (elems i).bind σ
  | adt d args => adt d fun i ↦ (args i).bind σ

theorem bind_bind (σ : V → RustTy W) (τ : W → RustTy X) (t : RustTy V) :
    (t.bind σ).bind τ = t.bind fun v ↦ (σ v).bind τ := by
  induction t with
  | var v => rfl
  | scalar s => rfl
  | str => rfl
  | traitObject trait => rfl
  | fnPointer => rfl
  | slice elem ih => exact congrArg slice ih
  | array elem ih => exact congrArg array ih
  | pointer kind pointee ih => exact congrArg (pointer kind) ih
  | tuple elems ih => exact congrArg tuple (funext ih)
  | adt d args ih => exact congrArg (adt d) (funext ih)

/-- What the size of a type depends on: its last field, as far down as it goes. -/
def tail : RustTy V → RustTy V
  | tuple (n := n + 1) elems => (elems (Fin.last n)).tail
  | adt d args =>
      match d.sizedness with
      | .asArg i => (args i).tail
      | _ => adt d args
  | t => t

/-- `Sized`.  A generic parameter is `Sized` unless it is declared otherwise. -/
def isSized : RustTy V → Bool
  | str | traitObject _ | slice _ => false
  | tuple (n := n + 1) elems => (elems (Fin.last n)).isSized
  | adt d args =>
      match d.sizedness with
      | .sized => true
      | .unsized => false
      | .asArg i => (args i).isSized
  | _ => true

/-- With its generics known, a type is as sized as what stands for its tail. -/
theorem isSized_bind (σ : V → RustTy W) (t : RustTy V) :
    (t.bind σ).isSized =
      match t.tail with
      | var v => (σ v).isSized
      | _ => t.isSized := by
  induction t with
  | tuple elems ih =>
      rename_i n
      cases n with
      | zero => rfl
      | succ n => exact ih (Fin.last n)
  | adt d args ih =>
      simp only [bind, tail, isSized]
      cases d.sizedness with
      | sized => rfl
      | unsized => rfl
      | asArg i => exact ih i
  | _ => rfl

/-- `<T as JitParam>::push_params`, where pointers have the type `ptrTy`: the parameters
appended, or `none` if `T` has no impl. -/
def jitParam (ptrTy : Ty) : RustTy V → Option (List Ty)
  | scalar s => some [s.lane ptrTy]
  | tuple (n := 0) _ => some []
  | pointer _ pointee => if pointee.isSized then some [ptrTy] else none
  | adt d _ => d.jitParam.map fun impl ↦ (impl ptrTy).toList
  | _ => none

/-- A type that `JitParam` gives no parameter: `()`, or a type of the user that is
ABI-equivalent to it. -/
def isUnit (ptrTy : Ty) : RustTy V → Bool
  | tuple (n := 0) _ => true
  | adt d _ => d.jitParam.any fun impl ↦ (impl ptrTy).isNone
  | _ => false

/-- An impl appends no parameter for a unit type, and one for every other. -/
theorem jitParam_cases {ptrTy : Ty} {t : RustTy V} {lanes : List Ty}
    (h : t.jitParam ptrTy = some lanes) :
    t.isUnit ptrTy = true ∧ lanes = [] ∨ t.isUnit ptrTy = false ∧ ∃ lane, lanes = [lane] := by
  cases t with
  | scalar s =>
      cases h
      exact .inr ⟨rfl, _, rfl⟩
  | tuple elems =>
      rename_i n
      cases n with
      | zero =>
          cases h
          exact .inl ⟨rfl, rfl⟩
      | succ n => cases h
  | pointer kind pointee =>
      rw [jitParam] at h
      split at h <;> cases h
      exact .inr ⟨rfl, _, rfl⟩
  | adt d args =>
      obtain ⟨impl, himpl, rfl⟩ := Option.map_eq_some_iff.mp h
      cases hlane : impl ptrTy with
      | none => exact .inl ⟨by simp [isUnit, himpl, hlane], rfl⟩
      | some lane => exact .inr ⟨by simp [isUnit, himpl, hlane], lane, rfl⟩
  | _ => cases h

/-- A pointer or reference to something that ends in the generic `v`. -/
def PointsTo (v : V) : RustTy V → Prop
  | pointer _ pointee => pointee.tail = var v
  | _ => False

/-- A pointer to an unsized type has no impl. -/
theorem jitParam_pointer_of_unsized {ptrTy : Ty} {kind : PointerKind} {pointee : RustTy V}
    (h : pointee.isSized = false) : (pointer kind pointee).jitParam ptrTy = none := by
  rw [jitParam, h]
  rfl

/-- A type with an impl keeps its parameters when the generics are known, except for a
pointer whose pointee turns out to be unsized, which has no impl. -/
theorem jitParam_bind {ptrTy : Ty} {t : RustTy V} {lanes : List Ty} (σ : V → RustTy W)
    (h : t.jitParam ptrTy = some lanes) :
    (t.bind σ).jitParam ptrTy = some lanes ∧ (∀ v, t.PointsTo v → (σ v).isSized = true) ∨
      (t.bind σ).jitParam ptrTy = none ∧ ∃ v, t.PointsTo v ∧ (σ v).isSized = false := by
  cases t with
  | pointer kind pointee =>
      have hsized : pointee.isSized = true := by
        by_contra hne
        rw [jitParam, if_neg hne] at h
        cases h
      rw [jitParam, if_pos hsized] at h
      cases h
      have hbind := isSized_bind σ pointee
      have hthin (hp : (pointee.bind σ).isSized = true) :
          (pointer kind (pointee.bind σ)).jitParam ptrTy = some [ptrTy] := by
        rw [jitParam, if_pos hp]
      show (pointer kind (pointee.bind σ)).jitParam ptrTy = _ ∧ (∀ v, pointee.tail = var v → _) ∨
        (pointer kind (pointee.bind σ)).jitParam ptrTy = none ∧ ∃ v, pointee.tail = var v ∧ _
      cases htail : pointee.tail with
      | var v =>
          rw [htail] at hbind
          cases hv : (σ v).isSized with
          | true =>
              refine .inl ⟨hthin (hbind.trans hv), ?_⟩
              rintro v' ⟨⟩
              exact hv
          | false => exact .inr ⟨jitParam_pointer_of_unsized (hbind.trans hv), v, rfl, hv⟩
      | _ =>
          rw [htail] at hbind
          refine .inl ⟨hthin (hbind.trans hsized), ?_⟩
          rintro v ⟨⟩
  | tuple elems =>
      rename_i n
      cases n with
      | zero => exact .inl ⟨h, fun _ hpoints ↦ hpoints.elim⟩
      | succ n => cases h
  | adt d args => exact .inl ⟨h, fun _ hpoints ↦ hpoints.elim⟩
  | scalar s => exact .inl ⟨h, fun _ hpoints ↦ hpoints.elim⟩
  | _ => cases h

end RustTy

/-! ## Expressions -/

/-- A type as it is written.  A path is a name without a qualification: there is no `super::`,
`self::` or `<T as Trait>::` in it. -/
inductive TypeExpr where
  | path (name : String) {n : Nat} (args : Fin n → TypeExpr)
  | tuple {n : Nat} (elems : Fin n → TypeExpr)
  | ptr (mutability : Bool) (elem : TypeExpr)
  | reference (mutability : Bool) (elem : TypeExpr)
  | slice (elem : TypeExpr)
  | array (elem : TypeExpr)
  | traitObject (trait : String)
  | bareFn
  | paren (elem : TypeExpr)
  | group (elem : TypeExpr)

/-- What a scope has for a name. -/
inductive TypeItem where
  | typeAlias (arity : Nat) (body : RustTy (Fin arity))
  | adt (adt : AdtDef)

/-- The type names of a scope. -/
abbrev Scope := String → Option TypeItem

namespace TypeItem

variable {V W : Type}

/-- The item with arguments, if they are as many as it takes. -/
def apply {n : Nat} (args : Fin n → RustTy V) : TypeItem → Option (RustTy V)
  | typeAlias arity body => if h : arity = n then some (body.bind fun i ↦ args (i.cast h)) else none
  | adt d => if h : d.arity = n then some (.adt d fun i ↦ args (i.cast h)) else none

/-- The primitive types, by name. -/
def primitives : List (String × RustTy (Fin 0)) :=
  [("i8", .scalar .i8), ("u8", .scalar .u8), ("i16", .scalar .i16), ("u16", .scalar .u16),
    ("i32", .scalar .i32), ("u32", .scalar .u32), ("i64", .scalar .i64), ("u64", .scalar .u64),
    ("f32", .scalar .f32), ("f64", .scalar .f64), ("bool", .scalar .bool),
    ("usize", .scalar .usize), ("isize", .scalar .isize), ("str", .str)]

/-- Look a name up; the primitive types are names of the outermost scope. -/
def find (scope : Scope) (name : String) : Option TypeItem :=
  (scope name).or ((primitives.lookup name).map (typeAlias 0))

theorem apply_bind {n : Nat} (σ : V → RustTy W) (args : Fin n → RustTy V) (item : TypeItem) :
    item.apply (fun i ↦ (args i).bind σ) = (item.apply args).map (RustTy.bind σ) := by
  cases item with
  | typeAlias arity body =>
      by_cases h : arity = n
      · subst h
        simp only [apply, dite_true, Option.map_some, RustTy.bind_bind]
      · simp only [apply, h, dite_false, Option.map_none]
  | adt d =>
      by_cases h : d.arity = n
      · subst h
        simp only [apply, dite_true, Option.map_some, RustTy.bind]
      · simp only [apply, h, dite_false, Option.map_none]

end TypeItem

/-- All of the values, if none is missing. -/
def collect {α : Type} {n : Nat} (f : Fin n → Option α) : Option (Fin n → α) :=
  if h : ∀ i, (f i).isSome then some fun i ↦ (f i).get (h i) else none

theorem collect_eq_some_iff {α : Type} {n : Nat} {f : Fin n → Option α} {g : Fin n → α} :
    collect f = some g ↔ ∀ i, f i = some (g i) := by
  unfold collect
  constructor
  · intro h i
    split at h
    · cases h
      exact (Option.some_get _).symm
    · cases h
  · intro h
    have hsome : ∀ i, (f i).isSome := fun i ↦ by rw [h i]; rfl
    rw [dif_pos hsome, Option.some.injEq]
    funext i
    simp only [h i, Option.get_some]

namespace TypeExpr

variable {V W : Type}

/-- Resolve an expression under generics, in a scope. -/
def resolve (scope : Scope) (generics : String → Option V) : TypeExpr → Option (RustTy V)
  | path name (n := n) args =>
      match generics name with
      | some v => if n = 0 then some (.var v) else none
      | none => do
          let args ← collect fun i ↦ (args i).resolve scope generics
          let item ← TypeItem.find scope name
          item.apply args
  | tuple elems => (collect fun i ↦ (elems i).resolve scope generics).map .tuple
  | ptr mutability elem =>
      (elem.resolve scope generics).map (.pointer (if mutability then .mutPtr else .constPtr))
  | reference mutability elem =>
      (elem.resolve scope generics).map (.pointer (if mutability then .mutRef else .sharedRef))
  | slice elem => (elem.resolve scope generics).map .slice
  | array elem => (elem.resolve scope generics).map .array
  | traitObject trait => some (.traitObject trait)
  | bareFn => some .fnPointer
  | paren elem => elem.resolve scope generics
  | group elem => elem.resolve scope generics

section

variable {scope : Scope} {generics : String → Option V} {n : Nat}

theorem resolve_path_of_some {name : String} {v : V} (h : generics name = some v)
    (args : Fin n → TypeExpr) {t : RustTy V}
    (ht : (path name args).resolve scope generics = some t) : n = 0 ∧ t = .var v := by
  simp only [resolve, h] at ht
  split at ht
  · cases ht
    exact ⟨‹_›, rfl⟩
  · cases ht

theorem resolve_path_of_none {name : String} (h : generics name = none)
    {args : Fin n → TypeExpr} {t : RustTy V} :
    (path name args).resolve scope generics = some t ↔
      ∃ ts, (∀ i, (args i).resolve scope generics = some (ts i)) ∧
        ∃ item, TypeItem.find scope name = some item ∧ item.apply ts = some t := by
  simp only [resolve, h, Option.bind_eq_bind, Option.bind_eq_some_iff, collect_eq_some_iff]

theorem resolve_tuple {elems : Fin n → TypeExpr} {t : RustTy V} :
    (tuple elems).resolve scope generics = some t ↔
      ∃ ts, (∀ i, (elems i).resolve scope generics = some (ts i)) ∧ .tuple ts = t := by
  simp only [resolve, Option.map_eq_some_iff, collect_eq_some_iff]

end

/-- An expression that is resolved under generics and again with types in the place of the
generics means the same type up to that replacement. -/
theorem resolve_bind {scope : Scope} {generics : String → Option V} {generics' : String → Option W}
    {σ : V → RustTy W} (hnone : ∀ name, generics name = none → generics' name = none)
    (hsome : ∀ name v, generics name = some v → ∀ (args : Fin 0 → TypeExpr) t,
      (path name args).resolve scope generics' = some t → t = σ v)
    {e : TypeExpr} {t : RustTy V} {t' : RustTy W} (ht : e.resolve scope generics = some t)
    (ht' : e.resolve scope generics' = some t') : t' = t.bind σ := by
  induction e generalizing t t' with
  | path name args ih =>
      cases hname : generics name with
      | some v =>
          obtain ⟨rfl, rfl⟩ := resolve_path_of_some hname args ht
          exact hsome name v hname args t' ht'
      | none =>
          obtain ⟨ts, hts, item, hitem, happly⟩ := (resolve_path_of_none hname).mp ht
          obtain ⟨ts', hts', item', hitem', happly'⟩ :=
            (resolve_path_of_none (hnone name hname)).mp ht'
          rw [hitem] at hitem'
          cases hitem'
          have hbind : ts' = fun i ↦ (ts i).bind σ := funext fun i ↦ ih i (hts i) (hts' i)
          rw [hbind, TypeItem.apply_bind, happly] at happly'
          exact (Option.some.inj happly').symm
  | tuple elems ih =>
      obtain ⟨ts, hts, rfl⟩ := resolve_tuple.mp ht
      obtain ⟨ts', hts', rfl⟩ := resolve_tuple.mp ht'
      exact congrArg RustTy.tuple (funext fun i ↦ ih i (hts i) (hts' i))
  | ptr _ _ ih | reference _ _ ih | slice _ ih | array _ ih =>
      obtain ⟨u, hu, rfl⟩ := Option.map_eq_some_iff.mp ht
      obtain ⟨u', hu', rfl⟩ := Option.map_eq_some_iff.mp ht'
      exact congrArg _ (ih hu hu')
  | traitObject | bareFn =>
      cases ht
      cases ht'
      rfl
  | paren _ ih | group _ ih => exact ih ht ht'

end TypeExpr

end LowerIrUtils.Export
