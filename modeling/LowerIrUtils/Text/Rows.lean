import Mathlib.Data.List.Basic

/-!
# Listings in rows

A long list is printed in rows of a fixed length (`chunks`), and rows that repeat the one
before them are left out for a star (`collapse`).  A row carries its address, so that a
reader knows how many rows a star stands for; `restore` is that reader.

It gives the rows back if the last one is never left out: a star at the end would stand
for any number of rows.
-/

universe u

namespace LowerIrUtils.Text

variable {α : Type u}

/-! ## Rows -/

/-- Consecutive pieces of length `n`, the last one possibly shorter. -/
def chunks (n : Nat) (xs : List α) : List (List α) :=
  (List.range ((xs.length + (n - 1)) / n)).map fun i ↦ (xs.drop (i * n)).take n

theorem length_chunks (n : Nat) (xs : List α) :
    (chunks n xs).length = (xs.length + (n - 1)) / n := by
  rw [chunks, List.length_map, List.length_range]

theorem chunks_nil {n : Nat} (hn : 0 < n) : chunks n ([] : List α) = [] := by
  have hzero : (([] : List α).length + (n - 1)) / n = 0 :=
    Nat.div_eq_of_lt (by rw [List.length_nil]; omega)
  rw [chunks, hzero]
  rfl

/-- The first piece taken apart from the rest. -/
theorem chunks_of_ne_nil {n : Nat} (hn : 0 < n) {xs : List α} (h : xs ≠ []) :
    chunks n xs = xs.take n :: chunks n (xs.drop n) := by
  have hpos : 0 < xs.length := List.length_pos_iff.mpr h
  have hcount : (xs.length + (n - 1)) / n = ((xs.drop n).length + (n - 1)) / n + 1 := by
    rw [List.length_drop, ← Nat.add_div_right _ hn]
    rcases Nat.lt_or_ge xs.length n with hlt | hge
    · rw [Nat.sub_eq_zero_of_le (Nat.le_of_lt hlt), Nat.div_eq_of_lt_le (k := 1),
        Nat.div_eq_of_lt_le (k := 1)]
      all_goals omega
    · congr 1
      omega
  rw [chunks, hcount, List.range_succ_eq_map, List.map_cons, List.map_map, Nat.zero_mul,
    List.drop_zero, chunks]
  congr 1
  apply List.map_congr_left
  intro i _
  rw [Function.comp_apply, List.drop_drop, Nat.succ_mul, Nat.add_comm]

/-- The pieces make up the list. -/
theorem flatten_chunks {n : Nat} (hn : 0 < n) (xs : List α) : (chunks n xs).flatten = xs := by
  induction hlen : xs.length using Nat.strongRecOn generalizing xs with
  | ind len ih =>
      by_cases h : xs = []
      · rw [h, chunks_nil hn]
        rfl
      · have hpos : 0 < xs.length := List.length_pos_iff.mpr h
        have hdrop : (xs.drop n).length < len := by
          rw [List.length_drop]
          omega
        rw [chunks_of_ne_nil hn h, List.flatten_cons, ih _ hdrop _ rfl, List.take_append_drop]

/-- Only the last piece may be shorter. -/
theorem length_of_mem_dropLast_chunks {n : Nat} (hn : 0 < n) {xs c : List α}
    (h : c ∈ (chunks n xs).dropLast) : c.length = n := by
  induction hlen : xs.length using Nat.strongRecOn generalizing xs with
  | ind len ih =>
      by_cases hnil : xs = []
      · rw [hnil, chunks_nil hn] at h
        cases h
      · have hpos : 0 < xs.length := List.length_pos_iff.mpr hnil
        rw [chunks_of_ne_nil hn hnil] at h
        by_cases hrest : xs.drop n = []
        · rw [hrest, chunks_nil hn] at h
          cases h
        · have hne : chunks n (xs.drop n) ≠ [] := by
            rw [chunks_of_ne_nil hn hrest]
            exact List.cons_ne_nil _ _
          have hdrop : n < xs.length := by
            by_contra hle
            exact hrest (List.drop_eq_nil_of_le (Nat.le_of_not_lt hle))
          rw [List.dropLast_cons_of_ne_nil hne] at h
          rcases List.mem_cons.mp h with rfl | hmem
          · rw [List.length_take]
            omega
          · exact ih _ (by rw [List.length_drop]; omega) hmem rfl

theorem length_le_of_mem_chunks {n : Nat} {xs c : List α} (h : c ∈ chunks n xs) :
    c.length ≤ n := by
  obtain ⟨i, -, rfl⟩ := List.mem_map.mp h
  exact List.length_take_le n _

/-! ## Leaving out repeated rows -/

/-- A line: a row with its address, or a star for rows left out. -/
inductive Line (α : Type u) where
  | row (addr : Nat) (x : α)
  | star
deriving DecidableEq

/-- The addresses printed. -/
def addresses (lines : List (Line α)) : List Nat :=
  lines.filterMap fun
    | .row addr _ => some addr
    | .star => none

/-- Every star stands between two rows. -/
def StarsBetweenRows (lines : List (Line α)) : Prop :=
  ∀ pre post, lines = pre ++ .star :: post →
    (∃ pre' addr x, pre = pre' ++ [.row addr x]) ∧ ∃ addr x post', post = .row addr x :: post'

section

variable [DecidableEq α] (stride : Nat) (keep : Nat → α → Bool)

/-- Print row number `n` and the rows after it, where row number `n` has the address
`n * stride`, the row before was `prev`, and `star` says whether it was left out.  A row that
repeats the one before is left out unless it is to be kept. -/
def collapse : (n : Nat) → (prev : Option α) → (star : Bool) → List α → List (Line α)
  | _, _, _, [] => []
  | n, prev, star, x :: xs =>
      if keep n x = false ∧ prev = some x then
        if star then collapse (n + 1) (some x) true xs
        else .star :: collapse (n + 1) (some x) true xs
      else .row (n * stride) x :: collapse (n + 1) (some x) false xs

omit [DecidableEq α] in
/-- Read row number `n` and the rows after it, where the row printed before is `prev`.  A
star stands for copies of it up to the address of the next row. -/
def restore : (n : Nat) → (prev : Option α) → List (Line α) → Option (List α)
  | _, _, [] => some []
  | n, _, .row addr x :: lines =>
      if addr = n * stride then (restore (n + 1) (some x) lines).map (x :: ·) else none
  | n, some p, .star :: .row addr x :: lines =>
      let copies := addr / stride - n
      (restore (n + copies) (some p) (.row addr x :: lines)).map (List.replicate copies p ++ ·)
  | _, _, .star :: _ => none

/-- The last row is kept. -/
def KeepsLast (n : Nat) (xs : List α) : Prop :=
  ∀ ys x, xs = ys ++ [x] → keep (n + ys.length) x

variable {stride keep}

omit [DecidableEq α] in
theorem KeepsLast.tail {n : Nat} {x : α} {xs : List α} (h : KeepsLast keep n (x :: xs)) :
    KeepsLast keep (n + 1) xs := by
  rintro ys y rfl
  have hkeep := h (x :: ys) y rfl
  rwa [List.length_cons, Nat.add_comm ys.length, ← Nat.add_assoc] at hkeep

omit [DecidableEq α] in
/-- A row that may be left out is not the last one. -/
theorem KeepsLast.ne_nil {n : Nat} {x : α} {xs : List α} (h : KeepsLast keep n (x :: xs))
    (hx : keep n x = false) : xs ≠ [] := by
  rintro rfl
  have hkeep : keep n x := h [] x rfl
  rw [hx] at hkeep
  cases hkeep

variable (stride) in
/-- The lines of the rows from number `n` on, the row before being `prev`: rows, and stars each
of which stands for `k + 1` copies of the row before it and is followed by another row. -/
inductive Collapsed : (n : Nat) → (prev : Option α) → List α → List (Line α) → Prop
  | nil {n : Nat} {prev : Option α} : Collapsed n prev [] []
  | row {n : Nat} {prev : Option α} {x : α} {xs : List α} {lines : List (Line α)}
      (h : Collapsed (n + 1) (some x) xs lines) :
      Collapsed n prev (x :: xs) (.row (n * stride) x :: lines)
  | star {n : Nat} {p x : α} (k : Nat) {xs : List α} {lines : List (Line α)}
      (h : Collapsed (n + (k + 1) + 1) (some x) xs lines) :
      Collapsed n (some p) (List.replicate (k + 1) p ++ x :: xs)
        (.star :: .row ((n + (k + 1)) * stride) x :: lines)

/-- `collapse` prints such lines; where rows are being left out, the next row is on its way. -/
theorem collapsed_collapse_aux {n : Nat} {xs : List α} (hlast : KeepsLast keep n xs) :
    (∀ prev, Collapsed stride n prev xs (collapse stride keep n prev false xs)) ∧
    ∀ p, xs ≠ [] → ∃ k x ys lines, xs = List.replicate k p ++ x :: ys ∧
      collapse stride keep n (some p) true xs = .row ((n + k) * stride) x :: lines ∧
      Collapsed stride (n + k + 1) (some x) ys lines := by
  induction xs generalizing n with
  | nil => exact ⟨fun _ ↦ .nil, fun _ h ↦ absurd rfl h⟩
  | cons x xs ih =>
      obtain ⟨ihRow, ihStar⟩ := ih hlast.tail
      constructor
      · intro prev
        rw [collapse]
        split
        · rename_i h
          obtain ⟨hkeep, rfl⟩ := h
          obtain ⟨k, y, ys, lines, hxs, hlines, hcollapsed⟩ := ihStar x (hlast.ne_nil hkeep)
          have hk : n + 1 + k = n + (k + 1) := by omega
          rw [hk] at hlines hcollapsed
          rw [if_neg Bool.false_ne_true, hlines, hxs]
          exact .star k hcollapsed
        · exact .row (ihRow _)
      · intro p _
        rw [collapse]
        split
        · rename_i h
          obtain ⟨hkeep, hp⟩ := h
          cases hp
          obtain ⟨k, y, ys, lines, hxs, hlines, hcollapsed⟩ := ihStar x (hlast.ne_nil hkeep)
          have hk : n + 1 + k = n + (k + 1) := by omega
          rw [hk] at hlines hcollapsed
          exact ⟨k + 1, y, ys, lines, by rw [hxs]; rfl, by rw [if_pos rfl, hlines], hcollapsed⟩
        · exact ⟨0, x, xs, _, rfl, rfl, ihRow _⟩

theorem collapsed_collapse {n : Nat} {xs : List α} (hlast : KeepsLast keep n xs)
    (prev : Option α) : Collapsed stride n prev xs (collapse stride keep n prev false xs) :=
  (collapsed_collapse_aux hlast).1 prev

end

/-! ## The lines printed -/

section

variable {stride : Nat}

namespace Collapsed

/-- Leaving out repeated rows loses nothing. -/
theorem restore_eq (hstride : 0 < stride) {n : Nat} {prev : Option α} {xs : List α}
    {lines : List (Line α)} (h : Collapsed stride n prev xs lines) :
    restore stride n prev lines = some xs := by
  induction h with
  | nil => rfl
  | row h ih =>
      rw [restore, if_pos rfl, ih]
      rfl
  | @star n p x k xs lines h ih =>
      have hcopies : (n + (k + 1)) * stride / stride - n = k + 1 := by
        rw [Nat.mul_div_cancel _ hstride, Nat.add_sub_cancel_left]
      conv_lhs => rw [restore]
      rw [hcopies, restore, if_pos rfl, ih]
      rfl

/-- The rows printed are among the rows. -/
theorem mem_of_row_mem {n : Nat} {prev : Option α} {xs : List α} {lines : List (Line α)}
    (h : Collapsed stride n prev xs lines) {addr : Nat} {x : α} (hmem : .row addr x ∈ lines) :
    x ∈ xs := by
  induction h with
  | nil => cases hmem
  | row h ih =>
      rcases List.mem_cons.mp hmem with heq | hmem
      · cases heq
        exact List.mem_cons_self
      · exact List.mem_cons_of_mem _ (ih hmem)
  | star k h ih =>
      apply List.mem_append_right
      rcases List.mem_cons.mp ((List.mem_cons.mp hmem).resolve_left (by simp)) with heq | hmem
      · cases heq
        exact List.mem_cons_self
      · exact List.mem_cons_of_mem _ (ih hmem)

/-- The addresses are increasing multiples of the stride, from that of the first row on. -/
theorem addresses_spec (hstride : 0 < stride) {n : Nat} {prev : Option α} {xs : List α}
    {lines : List (Line α)} (h : Collapsed stride n prev xs lines) :
    (addresses lines).Pairwise (· < ·) ∧
      ∀ addr ∈ addresses lines, n * stride ≤ addr ∧ stride ∣ addr := by
  -- a row put in front of rows with higher numbers
  have hcons {n m : Nat} {addrs : List Nat} (hnm : n ≤ m)
      (h : addrs.Pairwise (· < ·) ∧ ∀ addr ∈ addrs, (m + 1) * stride ≤ addr ∧ stride ∣ addr) :
      (m * stride :: addrs).Pairwise (· < ·) ∧
        ∀ addr ∈ m * stride :: addrs, n * stride ≤ addr ∧ stride ∣ addr := by
    have hlt : m * stride < (m + 1) * stride := Nat.mul_lt_mul_of_pos_right (by omega) hstride
    have hle : n * stride ≤ m * stride := Nat.mul_le_mul_right stride hnm
    refine ⟨.cons (fun addr hmem ↦ Nat.lt_of_lt_of_le hlt (h.2 addr hmem).1) h.1, ?_⟩
    intro addr hmem
    rcases List.mem_cons.mp hmem with rfl | hmem
    · exact ⟨hle, Nat.dvd_mul_left stride m⟩
    · obtain ⟨haddr, hdvd⟩ := h.2 addr hmem
      exact ⟨by omega, hdvd⟩
  induction h with
  | nil => exact ⟨.nil, fun _ h ↦ by cases h⟩
  | row h ih => exact hcons (Nat.le_refl _) ih
  | star k h ih => exact hcons (Nat.le_add_right _ _) ih

end Collapsed

/-- A star comes only after a row and only before one. -/
def Bracketed : (afterRow : Bool) → List (Line α) → Prop
  | _, [] => True
  | _, .row _ _ :: lines => Bracketed true lines
  | true, .star :: .row _ _ :: lines => Bracketed true lines
  | _, .star :: _ => False

/-- The lines end with a row, or there are none and a row came before. -/
def EndsWithRow (afterRow : Bool) (lines : List (Line α)) : Prop :=
  lines = [] ∧ afterRow = true ∨ ∃ lines' addr x, lines = lines' ++ [.row addr x]

/-- After a row, the lines end with a row once that row is put in front. -/
theorem EndsWithRow.exists_row_cons {lines : List (Line α)} (h : EndsWithRow true lines)
    (addr : Nat) (x : α) :
    ∃ lines' addr' x', .row addr x :: lines = lines' ++ [.row addr' x'] := by
  rcases h with ⟨rfl, -⟩ | ⟨lines', addr', x', rfl⟩
  · exact ⟨[], addr, x, rfl⟩
  · exact ⟨.row addr x :: lines', addr', x', rfl⟩

/-- What stands before a star ends with a row, and what comes after it starts with one. -/
theorem Bracketed.split {afterRow : Bool} {lines pre post : List (Line α)}
    (h : Bracketed afterRow lines) (heq : lines = pre ++ .star :: post) :
    EndsWithRow afterRow pre ∧ ∃ addr x post', post = .row addr x :: post' := by
  induction afterRow, lines using Bracketed.induct generalizing pre with
  | case1 afterRow => simp at heq
  | case2 afterRow addr x lines ih =>
      cases pre with
      | nil => cases heq
      | cons l pre =>
          cases heq
          obtain ⟨hpre, hpost⟩ := ih h rfl
          exact ⟨.inr (hpre.exists_row_cons addr x), hpost⟩
  | case3 addr x lines ih =>
      cases pre with
      | nil =>
          cases heq
          exact ⟨.inl ⟨rfl, rfl⟩, addr, x, lines, rfl⟩
      | cons l pre =>
          cases pre with
          | nil => cases heq
          | cons l' pre =>
              cases heq
              obtain ⟨hpre, hpost⟩ := ih h rfl
              obtain ⟨pre', addr', x', heq⟩ := hpre.exists_row_cons addr x
              exact ⟨.inr ⟨.star :: pre', addr', x', by rw [heq]; rfl⟩, hpost⟩
  | case4 afterRow lines hrow =>
      rw [Bracketed] at h
      · exact h.elim
      · exact hrow

theorem starsBetweenRows_of_bracketed {lines : List (Line α)} (h : Bracketed false lines) :
    StarsBetweenRows lines := by
  intro pre post heq
  obtain ⟨hpre, hpost⟩ := h.split heq
  refine ⟨hpre.resolve_left ?_, hpost⟩
  rintro ⟨-, hfalse⟩
  cases hfalse

theorem Collapsed.bracketed {n : Nat} {prev : Option α} {xs : List α} {lines : List (Line α)}
    (h : Collapsed stride n prev xs lines) {afterRow : Bool} (hprev : prev.isSome → afterRow) :
    Bracketed afterRow lines := by
  induction h generalizing afterRow with
  | nil => exact trivial
  | row h ih => exact ih fun _ ↦ rfl
  | star k h ih =>
      rw [hprev rfl]
      exact ih fun _ ↦ rfl

/-- Every star stands between two rows, if no row comes before the first one. -/
theorem Collapsed.starsBetweenRows {n : Nat} {xs : List α} {lines : List (Line α)}
    (h : Collapsed stride n none xs lines) : StarsBetweenRows lines :=
  starsBetweenRows_of_bracketed (h.bracketed fun hsome ↦ hsome)

end

end LowerIrUtils.Text
