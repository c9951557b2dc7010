import Mathlib.Data.List.Induction

/-!
# A log of writes and what it leaves behind

`overwrite l a new` replaces the entries of `l` from position `a` on by those of
`new`, position by position, and drops what would fall past the end.  A list that
has been overwritten by a log of writes holds, at each position, the entry of the
latest write that covers the position, and what it held at first if none does.
-/

universe u

namespace LowerIrUtils.Bits

variable {α : Type u}

/-- Replace the entries of `l` from position `a` on by those of `new`. -/
def overwrite (l : List α) (a : Nat) (new : List α) : List α :=
  l.mapIdx fun i b ↦ if a ≤ i then (new[i - a]?).getD b else b

@[simp] theorem length_overwrite (l : List α) (a : Nat) (new : List α) :
    (overwrite l a new).length = l.length := by
  simp [overwrite]

theorem getElem?_overwrite (l : List α) (a : Nat) (new : List α) (i : Nat) :
    (overwrite l a new)[i]? =
      (l[i]?).map fun b ↦ if a ≤ i then (new[i - a]?).getD b else b := by
  rw [overwrite, List.getElem?_mapIdx]

/-- What has been put in place is read back. -/
theorem take_drop_overwrite {l : List α} {a : Nat} {new : List α}
    (h : a + new.length ≤ l.length) : ((overwrite l a new).drop a).take new.length = new := by
  apply List.ext_getElem?
  intro i
  by_cases hi : i < new.length
  · have hl : a + i < l.length := by omega
    rw [List.getElem?_take_of_lt hi, List.getElem?_drop, getElem?_overwrite,
      List.getElem?_eq_getElem hl, Option.map_some, if_pos (Nat.le_add_right a i),
      Nat.add_sub_cancel_left, List.getElem?_eq_getElem hi, Option.getD_some]
  · rw [List.getElem?_eq_none (Nat.le_of_not_lt hi), List.getElem?_eq_none]
    rw [List.length_take, List.length_drop, length_overwrite]
    omega

/-- Putting back what is there changes nothing. -/
theorem overwrite_take_drop (l : List α) (a n : Nat) :
    overwrite l a ((l.drop a).take n) = l := by
  apply List.ext_getElem?
  intro i
  rw [getElem?_overwrite]
  cases hi : l[i]? with
  | none => rfl
  | some b =>
      rw [Option.map_some]
      by_cases ha : a ≤ i
      · rw [if_pos ha, List.getElem?_take]
        split
        · rw [List.getElem?_drop, Nat.add_sub_cancel' ha, hi]
          rfl
        · rfl
      · rw [if_neg ha]

/-- A write of `data` from position `addr` on. -/
structure Write (α : Type u) where
  addr : Nat
  data : List α

namespace Write

/-- The entry a write puts at a position, if it covers the position. -/
def get? (w : Write α) (i : Nat) : Option α :=
  if w.addr ≤ i then w.data[i - w.addr]? else none

/-- Carry a write out. -/
def apply (w : Write α) (l : List α) : List α := overwrite l w.addr w.data

@[simp] theorem length_apply (w : Write α) (l : List α) : (w.apply l).length = l.length :=
  length_overwrite l w.addr w.data

theorem getElem?_apply (w : Write α) (l : List α) (i : Nat) :
    (w.apply l)[i]? = (l[i]?).map fun b ↦ (w.get? i).getD b := by
  simp only [apply, getElem?_overwrite, get?]
  split <;> rfl

end Write

/-- The entry the latest write of a log (newest last) puts at a position. -/
def latest (log : List (Write α)) (i : Nat) : Option α := log.reverse.findSome? (·.get? i)

@[simp] theorem latest_nil (i : Nat) : latest ([] : List (Write α)) i = none := rfl

/-- A log whose writes all end before a position does not cover it. -/
theorem latest_eq_none {log : List (Write α)} {i : Nat}
    (h : ∀ w ∈ log, w.addr + w.data.length ≤ i) : latest log i = none := by
  refine List.findSome?_eq_none_iff.mpr fun w hw ↦ ?_
  have hle := h w (List.mem_reverse.mp hw)
  rw [Write.get?]
  split
  · exact List.getElem?_eq_none (Nat.le_sub_of_add_le (Nat.add_comm _ _ ▸ hle))
  · rfl

/-- A new write takes precedence over the log before it. -/
theorem latest_append_singleton (log : List (Write α)) (w : Write α) (i : Nat) :
    latest (log ++ [w]) i = (w.get? i).or (latest log i) := by
  rw [latest, List.reverse_append, List.reverse_singleton, List.singleton_append,
    List.findSome?_cons]
  cases w.get? i <;> rfl

/-- Carry a log of writes out, oldest first. -/
def replay (l : List α) (log : List (Write α)) : List α := log.foldl (fun l w ↦ w.apply l) l

@[simp] theorem replay_nil (l : List α) : replay l [] = l := rfl

theorem replay_append (l : List α) (log log' : List (Write α)) :
    replay l (log ++ log') = replay (replay l log) log' :=
  List.foldl_append

@[simp] theorem replay_append_singleton (l : List α) (log : List (Write α)) (w : Write α) :
    replay l (log ++ [w]) = w.apply (replay l log) := by
  simp [replay]

@[simp] theorem length_replay (l : List α) (log : List (Write α)) :
    (replay l log).length = l.length := by
  induction log using List.reverseRecOn with
  | nil => rfl
  | append_singleton log w ih => rw [replay_append_singleton, Write.length_apply, ih]

/-- After a log of writes each position holds the entry of the latest write that
covers it, and its first entry if none does. -/
theorem getElem?_replay (l : List α) (log : List (Write α)) (i : Nat) :
    (replay l log)[i]? = (l[i]?).map fun b ↦ (latest log i).getD b := by
  induction log using List.reverseRecOn with
  | nil => simp
  | append_singleton log w ih =>
      rw [replay_append_singleton, Write.getElem?_apply, ih, latest_append_singleton,
        Option.map_map]
      congr 1
      funext b
      cases w.get? i <;> simp [Function.comp_apply]

end LowerIrUtils.Bits
