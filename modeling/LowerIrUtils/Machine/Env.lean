import Mathlib.Data.List.Basic

/-!
# Environments

An environment is a partial map from names to values.  `insertAll` binds a list of
names to a list of values, pair by pair and from left to right, and stops at the end
of the shorter list; `lookupAll` reads a list of names and reports the first one that
is unbound.

An environment is never shrunk here: a name once bound stays bound
(`Env.isSome_insertAll_of_isSome`).
-/

universe u v w

namespace LowerIrUtils

/-- A partial map from the names `κ` to the values `α`. -/
abbrev Env (κ : Type u) (α : Type v) := κ → Option α

namespace Env

variable {κ : Type u} {α : Type v} {β : Type w}

/-- Nothing is bound. -/
def empty : Env κ α := fun _ ↦ none

@[simp] theorem empty_apply (k : κ) : (empty : Env κ α) k = none := rfl

/-- Apply a function to every value. -/
def map (g : α → β) (env : Env κ α) : Env κ β := fun k ↦ (env k).map g

@[simp] theorem map_apply (g : α → β) (env : Env κ α) (k : κ) :
    env.map g k = (env k).map g := rfl

/-- Look up a list of names, or give the first one that is unbound. -/
def lookupAll (env : Env κ α) : List κ → Except κ (List α)
  | [] => .ok []
  | k :: ks =>
      match env k with
      | none => .error k
      | some x => (lookupAll env ks).map (x :: ·)

@[simp] theorem lookupAll_nil (env : Env κ α) : env.lookupAll [] = .ok [] := rfl

theorem lookupAll_cons_of_none {env : Env κ α} {k : κ} (h : env k = none) (ks : List κ) :
    env.lookupAll (k :: ks) = .error k := by
  simp only [lookupAll, h]

theorem lookupAll_cons_of_some {env : Env κ α} {k : κ} {x : α} (h : env k = some x)
    (ks : List κ) : env.lookupAll (k :: ks) = (env.lookupAll ks).map (x :: ·) := by
  simp only [lookupAll, h]

/-- A list of names is looked up successfully exactly if each of them is bound. -/
theorem lookupAll_eq_ok_iff {env : Env κ α} {ks : List κ} {xs : List α} :
    env.lookupAll ks = .ok xs ↔ ks.map env = xs.map some := by
  induction ks generalizing xs with
  | nil => cases xs <;> simp
  | cons k ks ih =>
      cases hk : env k with
      | none =>
          rw [lookupAll_cons_of_none hk]
          cases xs <;> simp [hk]
      | some x =>
          rw [lookupAll_cons_of_some hk, List.map_cons, hk]
          constructor
          · intro h
            cases hks : env.lookupAll ks with
            | error e => rw [hks] at h; cases h
            | ok ys =>
                rw [hks] at h
                cases h
                rw [List.map_cons, ih.mp hks]
          · intro h
            cases xs with
            | nil => cases h
            | cons y ys =>
                obtain ⟨hxy, hys⟩ := List.cons.inj h
                cases hxy
                rw [ih.mpr hys]
                rfl

theorem exists_lookupAll {env : Env κ α} {ks : List κ} (h : ∀ k ∈ ks, (env k).isSome) :
    ∃ xs, env.lookupAll ks = .ok xs := by
  induction ks with
  | nil => exact ⟨[], rfl⟩
  | cons k ks ih =>
      obtain ⟨x, hx⟩ := Option.isSome_iff_exists.mp (h k List.mem_cons_self)
      obtain ⟨xs, hxs⟩ := ih fun k' hk' ↦ h k' (List.mem_cons_of_mem k hk')
      exact ⟨x :: xs, by rw [lookupAll_cons_of_some hx, hxs]; rfl⟩

/-- The name reported is the first one that is unbound. -/
theorem lookupAll_eq_error_iff {env : Env κ α} {ks : List κ} {k : κ} :
    env.lookupAll ks = .error k ↔
      ∃ pre post, ks = pre ++ k :: post ∧ (∀ u ∈ pre, (env u).isSome) ∧ env k = none := by
  induction ks with
  | nil => simp
  | cons u ks ih =>
      cases hu : env u with
      | none =>
          rw [lookupAll_cons_of_none hu]
          constructor
          · intro h
            cases h
            exact ⟨[], ks, rfl, by simp, hu⟩
          · rintro ⟨pre, post, heq, hpre, -⟩
            cases pre with
            | nil => cases heq; rfl
            | cons p pre =>
                cases heq
                have := hpre u List.mem_cons_self
                rw [hu] at this
                cases this
      | some x =>
          rw [lookupAll_cons_of_some hu]
          have hmap : (env.lookupAll ks).map (x :: ·) = .error k ↔
              env.lookupAll ks = .error k := by
            cases env.lookupAll ks <;> simp [Except.map]
          rw [hmap, ih]
          constructor
          · rintro ⟨pre, post, rfl, hpre, hk⟩
            refine ⟨u :: pre, post, rfl, ?_, hk⟩
            intro p hp
            rcases List.mem_cons.mp hp with rfl | hp
            · rw [hu]; rfl
            · exact hpre p hp
          · rintro ⟨pre, post, heq, hpre, hk⟩
            cases pre with
            | nil => cases heq; rw [hu] at hk; cases hk
            | cons p pre =>
                cases heq
                exact ⟨pre, post, rfl, fun q hq ↦ hpre q (List.mem_cons_of_mem u hq), hk⟩

/-- Looking up after applying a function to every value. -/
theorem lookupAll_map (g : α → β) (env : Env κ α) (ks : List κ) :
    (env.map g).lookupAll ks = (env.lookupAll ks).map (List.map g) := by
  induction ks with
  | nil => rfl
  | cons k ks ih =>
      cases hk : env k with
      | none => rw [lookupAll_cons_of_none hk, lookupAll_cons_of_none (by simp [hk])]; rfl
      | some x =>
          rw [lookupAll_cons_of_some hk,
            lookupAll_cons_of_some (show env.map g k = some (g x) by simp [hk]), ih]
          cases env.lookupAll ks <;> rfl

/-! ## Binding -/

variable [DecidableEq κ]

/-- Bind one name. -/
def insert (env : Env κ α) (k : κ) (x : α) : Env κ α :=
  fun k' ↦ if k' = k then some x else env k'

theorem insert_apply (env : Env κ α) (k : κ) (x : α) (k' : κ) :
    env.insert k x k' = if k' = k then some x else env k' := rfl

@[simp] theorem insert_same (env : Env κ α) (k : κ) (x : α) : env.insert k x k = some x :=
  if_pos rfl

theorem insert_of_ne (env : Env κ α) {k k' : κ} (x : α) (h : k' ≠ k) :
    env.insert k x k' = env k' :=
  if_neg h

theorem map_insert (g : α → β) (env : Env κ α) (k : κ) (x : α) :
    (env.insert k x).map g = (env.map g).insert k (g x) := by
  funext k'
  rw [map_apply, insert_apply, insert_apply]
  split <;> rfl

/-- Bind a list of names to a list of values, pair by pair. -/
def insertAll : List κ → List α → Env κ α → Env κ α
  | k :: ks, x :: xs, env => insertAll ks xs (env.insert k x)
  | _, _, env => env

@[simp] theorem insertAll_nil (xs : List α) (env : Env κ α) : insertAll [] xs env = env := rfl

@[simp] theorem insertAll_nil_right (ks : List κ) (env : Env κ α) :
    insertAll ks [] env = env := by
  cases ks <;> rfl

@[simp] theorem insertAll_cons (k : κ) (ks : List κ) (x : α) (xs : List α) (env : Env κ α) :
    insertAll (k :: ks) (x :: xs) env = insertAll ks xs (env.insert k x) := rfl

/-- A name that no value is left for keeps what it is bound to. -/
theorem insertAll_of_not_mem_take {ks : List κ} {xs : List α} {k : κ}
    (h : k ∉ ks.take xs.length) (env : Env κ α) : insertAll ks xs env k = env k := by
  induction ks generalizing xs env with
  | nil => rfl
  | cons k' ks ih =>
      cases xs with
      | nil => rfl
      | cons x xs =>
          rw [List.length_cons, List.take_succ_cons] at h
          obtain ⟨hne, hks⟩ := not_or.mp (fun hor ↦ h (List.mem_cons.mpr hor))
          rw [insertAll_cons, ih hks, insert_of_ne _ _ hne]

/-- The names not in the list keep what they are bound to. -/
theorem insertAll_of_not_mem {ks : List κ} {k : κ} (h : k ∉ ks) (xs : List α) (env : Env κ α) :
    insertAll ks xs env k = env k :=
  insertAll_of_not_mem_take (fun hmem ↦ h (List.mem_of_mem_take hmem)) env

/-- Whatever a name is bound to afterwards it was bound to before, or it is one of the
names and the value is the one at the same place. -/
theorem insertAll_eq_some {ks : List κ} {xs : List α} {env : Env κ α} {k : κ} {x : α}
    (h : insertAll ks xs env k = some x) :
    (∃ i : Nat, ks[i]? = some k ∧ xs[i]? = some x) ∨ env k = some x := by
  induction ks generalizing xs env with
  | nil => exact .inr h
  | cons k' ks ih =>
      cases xs with
      | nil => exact .inr h
      | cons y ys =>
          rcases ih h with ⟨i, hk, hx⟩ | henv
          · exact .inl ⟨i + 1, hk, hx⟩
          · rw [insert_apply] at henv
            split at henv
            · rename_i heq
              subst heq
              exact .inl ⟨0, rfl, henv⟩
            · exact .inr henv

/-- A name stays bound. -/
theorem isSome_insertAll_of_isSome {env : Env κ α} {k : κ} (h : (env k).isSome) (ks : List κ)
    (xs : List α) : (insertAll ks xs env k).isSome := by
  induction ks generalizing xs env with
  | nil => exact h
  | cons k' ks ih =>
      cases xs with
      | nil => exact h
      | cons x xs =>
          apply ih
          rw [insert_apply]
          split
          · rfl
          · exact h

/-- A name with a value at its place is bound. -/
theorem isSome_insertAll_of_mem {ks : List κ} {k : κ} (h : k ∈ ks) {xs : List α}
    (hlen : ks.length ≤ xs.length) (env : Env κ α) : (insertAll ks xs env k).isSome := by
  induction ks generalizing xs env with
  | nil => cases h
  | cons k' ks ih =>
      cases xs with
      | nil => cases hlen
      | cons x xs =>
          rcases List.mem_cons.mp h with rfl | hmem
          · exact isSome_insertAll_of_isSome (by rw [insert_same]; rfl) ks xs
          · exact ih hmem (Nat.le_of_succ_le_succ hlen) _

/-- Distinct names are bound to the values at their places. -/
theorem map_insertAll_self {ks : List κ} {xs : List α} (hnodup : ks.Nodup)
    (hlen : xs.length = ks.length) (env : Env κ α) :
    ks.map (insertAll ks xs env) = xs.map some := by
  induction ks generalizing xs env with
  | nil => rw [List.length_eq_zero_iff.mp hlen, List.map_nil, List.map_nil]
  | cons k ks ih =>
      cases xs with
      | nil => cases hlen
      | cons x xs =>
          obtain ⟨hk, hks⟩ := List.nodup_cons.mp hnodup
          rw [List.map_cons, insertAll_cons, insertAll_of_not_mem hk, insert_same,
            ih hks (Nat.succ.inj hlen), List.map_cons]

theorem map_insertAll (g : α → β) (ks : List κ) (xs : List α) (env : Env κ α) :
    (insertAll ks xs env).map g = insertAll ks (xs.map g) (env.map g) := by
  induction ks generalizing xs env with
  | nil => rfl
  | cons k ks ih =>
      cases xs with
      | nil => rfl
      | cons x xs => rw [insertAll_cons, ih, List.map_cons, insertAll_cons, map_insert]

/-! ## Renamed names -/

/-- `env'` is `env` with every name replaced. -/
structure Renamed {κ' : Type*} (g : κ → κ') (env : Env κ α) (env' : Env κ' α) : Prop where
  apply : ∀ k, env' (g k) = env k
  outside : ∀ k', (∀ k, g k ≠ k') → env' k' = none

namespace Renamed

variable {κ' : Type*} {g : κ → κ'} {env : Env κ α} {env' : Env κ' α}

omit [DecidableEq κ] in
theorem empty : Renamed g (.empty : Env κ α) .empty := ⟨fun _ ↦ rfl, fun _ _ ↦ rfl⟩

omit [DecidableEq κ] in
/-- Looking up the new names, where the first that is unbound is that under its new name. -/
theorem lookupAll (h : Renamed g env env') (ks : List κ) :
    env'.lookupAll (ks.map g) = (env.lookupAll ks).mapError g := by
  induction ks with
  | nil => rfl
  | cons k ks ih =>
      rw [List.map_cons]
      cases hk : env k with
      | none =>
          rw [lookupAll_cons_of_none hk, lookupAll_cons_of_none ((h.apply k).trans hk)]
          rfl
      | some x =>
          rw [lookupAll_cons_of_some hk, lookupAll_cons_of_some ((h.apply k).trans hk), ih]
          cases env.lookupAll ks <;> rfl

variable [DecidableEq κ']

theorem insert (h : Renamed g env env') (hg : Function.Injective g) (k : κ) (x : α) :
    Renamed g (env.insert k x) (env'.insert (g k) x) where
  apply k' := by
    by_cases hk : k' = k
    · rw [hk, insert_same, insert_same]
    · rw [insert_of_ne _ _ hk, insert_of_ne _ _ (hg.ne hk), h.apply]
  outside k' hk' := by
    rw [insert_of_ne _ _ (hk' k).symm]
    exact h.outside k' hk'

theorem insertAll (h : Renamed g env env') (hg : Function.Injective g) (ks : List κ)
    (xs : List α) : Renamed g (Env.insertAll ks xs env) (Env.insertAll (ks.map g) xs env') := by
  induction ks generalizing xs env env' with
  | nil => exact h
  | cons k ks ih =>
      cases xs with
      | nil => exact h
      | cons x xs => exact ih (h.insert hg k x) xs

end Renamed

end Env

end LowerIrUtils
