import LowerIrUtils.Machine.Dominance
import Mathlib.Data.List.Nodup

/-!
# What reaches a point

Leaving a point establishes a fact, which holds until a point is passed that spoils it.
If whatever spoils the fact of `d` dominates `d`, then the fact holds at every point that
`d` strictly dominates: on the way there nothing can have been spoiled without coming
through `d` again (`Reaching.fact_of_strictlyDominates`).
-/

universe u v

namespace LowerIrUtils

variable {α : Type u} {σ : Type v} {edge : α → α → Prop} {s : α}

namespace Path

/-- The part of a path up to a point it has left, and the rest of it, which can be taken
after any path to that point. -/
theorem split {pre post : List α} {o p : α} (h : Path edge s (pre ++ o :: post) p) :
    Path edge s post o ∧ ∀ post', Path edge s post' o → Path edge s (pre ++ o :: post') p := by
  induction pre generalizing p with
  | nil =>
      cases h with
      | step h hedge => exact ⟨h, fun post' h' ↦ .step h' hedge⟩
  | cons x pre ih =>
      cases h with
      | step h hedge =>
          obtain ⟨hpost, hrest⟩ := ih h
          exact ⟨hpost, fun post' h' ↦ .step (hrest post' h') hedge⟩

/-- A point on a path can be reached without passing it before. -/
theorem exists_first {visited : List α} {p d : α} (h : Path edge s visited p)
    (hd : d ∈ p :: visited) : ∃ post, Path edge s post d ∧ d ∉ post := by
  induction h with
  | refl =>
      rw [List.mem_singleton.mp hd]
      exact ⟨[], .refl, List.not_mem_nil⟩
  | @step visited p q h hedge ih =>
      by_cases hmem : d ∈ p :: visited
      · exact ih hmem
      · obtain rfl : d = q := (List.mem_cons.mp hd).resolve_right hmem
        exact ⟨_, .step h hedge, hmem⟩

/-- Where no path comes back to a point it has left, a path passes each point once. -/
theorem nodup (hfree : ∀ visited p, Path edge s visited p → p ∉ visited) {visited : List α} {p : α}
    (h : Path edge s visited p) : (p :: visited).Nodup := by
  induction h with
  | refl => exact List.nodup_singleton s
  | step h hedge ih => exact List.nodup_cons.mpr ⟨hfree _ _ (.step h hedge), ih⟩

/-- Along edges that increase a rank, no path comes back to a point it has left. -/
theorem not_mem_of_rank {rank : α → Nat} (hrank : ∀ p q, edge p q → rank p < rank q)
    {visited : List α} {p : α} (h : Path edge s visited p) : p ∉ visited := by
  have hlt : ∀ x ∈ visited, rank x < rank p := by
    induction h with
    | refl => exact fun x hx ↦ absurd hx List.not_mem_nil
    | @step visited p q h hedge ih =>
        intro x hx
        rcases List.mem_cons.mp hx with rfl | hx
        · exact hrank x q hedge
        · exact Nat.lt_trans (ih x hx) (hrank p q hedge)
  exact fun hmem ↦ Nat.lt_irrefl _ (hlt p hmem)

end Path

namespace StrictlyDominates

variable {d o p : α}

/-- A point that can be reached does not strictly dominate itself. -/
theorem irrefl {visited : List α} (hpath : Path edge s visited p) :
    ¬ StrictlyDominates edge s p p := by
  intro h
  obtain ⟨post, hpost, hp⟩ := hpath.exists_first List.mem_cons_self
  exact hp (h post hpost)

/-- Since `d` was left for the last time, no point has been passed that dominates `d`. -/
theorem not_mem_since {pre post : List α} (h : StrictlyDominates edge s d p)
    (hpath : Path edge s (pre ++ d :: post) p) (hd : d ∉ pre) (hdom : Dominates edge s o d) :
    o ∉ p :: pre := by
  -- the point can be reached without passing `d`, unless it is `d` itself
  obtain ⟨first, hfirst, hnot⟩ := hpath.split.1.exists_first List.mem_cons_self
  have hreach : o = d ∨ ∃ before, Path edge s before o ∧ d ∉ before := by
    rcases List.mem_cons.mp (hdom first hfirst) with rfl | ho
    · exact .inl rfl
    · right
      obtain ⟨later, before, rfl⟩ := List.append_of_mem ho
      refine ⟨before, hfirst.split.1, fun hbefore ↦ hnot ?_⟩
      exact List.mem_append_right _ (List.mem_cons_of_mem _ hbefore)
  have hne : d ≠ p := fun heq ↦ irrefl hpath (heq ▸ h)
  intro ho
  rcases hreach with rfl | ⟨before, hbefore, hnotBefore⟩
  · rcases List.mem_cons.mp ho with heq | ho
    · exact hne heq
    · exact hd ho
  · rcases List.mem_cons.mp ho with rfl | ho
    · exact hnotBefore (h before hbefore)
    · obtain ⟨later, earlier, rfl⟩ := List.append_of_mem ho
      have hshort : Path edge s (later ++ o :: before) p := by
        have hlong : Path edge s (later ++ o :: (earlier ++ d :: post)) p := by simpa using hpath
        exact hlong.split.2 before hbefore
      have hmem := h _ hshort
      rw [List.mem_append, List.mem_cons] at hmem
      rcases hmem with hmem | rfl | hmem
      · exact hd (List.mem_append_left _ hmem)
      · exact hd (List.mem_append_right _ List.mem_cons_self)
      · exact hnotBefore hmem

end StrictlyDominates

/-- In the state `t` at the point `p`, a path to `p` has been taken, and the fact of a point
left on it holds if no point that spoils it has been passed since. -/
def Reaching (edge : α → α → Prop) (s : α) (Spoils : α → α → Prop) (Fact : α → σ → Prop) (p : α)
    (t : σ) : Prop :=
  ∃ visited, Path edge s visited p ∧ ∀ pre d post, visited = pre ++ d :: post → d ∉ pre →
    (∀ o, Spoils d o → o ∉ p :: pre) → Fact d t

namespace Reaching

variable {Spoils : α → α → Prop} {Fact : α → σ → Prop} {d p q : α} {t t' : σ}

theorem refl (t : σ) : Reaching edge s Spoils Fact s t := by
  refine ⟨[], .refl, ?_⟩
  intro pre d post h
  cases pre <;> cases h

/-- Take an edge: the fact of the point left is new, unless the point entered spoils it, and a
fact that neither of the two spoils stays. -/
theorem step (h : Reaching edge s Spoils Fact p t) (hedge : edge p q)
    (hnew : (∀ o, Spoils p o → o ≠ q) → Fact p t')
    (hstay : ∀ d, d ≠ p → ¬ Spoils d p → ¬ Spoils d q → Fact d t → Fact d t') :
    Reaching edge s Spoils Fact q t' := by
  obtain ⟨visited, hpath, hfacts⟩ := h
  refine ⟨p :: visited, .step hpath hedge, ?_⟩
  intro pre d post heq hd hspoils
  cases pre with
  | nil =>
      cases heq
      exact hnew fun o ho hoq ↦ hspoils o ho (hoq ▸ List.mem_cons_self)
  | cons x pre =>
      obtain ⟨rfl, hrest⟩ := List.cons.inj heq
      have hne : d ≠ p := fun h ↦ hd (h ▸ List.mem_cons_self)
      refine hstay d hne ?_ ?_ (hfacts pre d post hrest ?_ ?_)
      · exact fun h ↦ hspoils p h (List.mem_cons_of_mem _ List.mem_cons_self)
      · exact fun h ↦ hspoils q h List.mem_cons_self
      · exact fun h ↦ hd (List.mem_cons_of_mem _ h)
      · exact fun o ho h ↦ hspoils o ho (List.mem_cons_of_mem _ h)

/-- The fact of a strict dominator holds, if what spoils it dominates the dominator. -/
theorem fact_of_strictlyDominates (h : Reaching edge s Spoils Fact p t)
    (hd : StrictlyDominates edge s d p) (hspoils : ∀ o, Spoils d o → Dominates edge s o d) :
    Fact d t := by
  classical
  obtain ⟨visited, hpath, hfacts⟩ := h
  -- latest first, so the first occurrence is the last time `d` was left
  obtain ⟨pre, post, rfl, hpre⟩ := List.eq_append_cons_of_mem (hd visited hpath)
  exact hfacts pre d post rfl hpre fun o ho ↦ hd.not_mem_since hpath hpre (hspoils o ho)

end Reaching

end LowerIrUtils
