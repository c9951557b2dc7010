import Mathlib.Data.List.Basic

/-!
# Linear sweeps

A linear sweep cuts a list into consecutive pieces by a partial decoder: the decoder says
how long the piece at an address is, the sweep goes on after it, and stops where the
decoder does.  The pieces and what is left over make up the list, and each piece starts
where the one before it ends.  Nothing is left over exactly if the decoder gets to the end
(`Swept.tail_eq_nil_iff`).
-/

universe u v

namespace LowerIrUtils.Text

variable {α : Type u} {β : Type v}

/-- What a decoder makes of the list at an address: the length of the first piece, and what
there is to say of it. -/
abbrev PieceDecoder (α : Type u) (β : Type v) := Nat → List α → Option (Nat × β)

/-- A piece of a list with its address. -/
structure Piece (α : Type u) (β : Type v) where
  addr : Nat
  items : List α
  info : β
deriving DecidableEq

/-- The pieces that a sweep cuts off the list at an address, and what it leaves over. -/
inductive Swept (decode : PieceDecoder α β) :
    Nat → List α → List (Piece α β) → List α → Prop
  | stop {addr : Nat} {xs : List α} (h : decode addr xs = none) : Swept decode addr xs [] xs
  | step {addr n : Nat} {xs tail : List α} {info : β} {pieces : List (Piece α β)}
      (h : decode addr xs = some (n, info)) (hpos : 0 < n) (hle : n ≤ xs.length)
      (hrest : Swept decode (addr + n) (xs.drop n) pieces tail) :
      Swept decode addr xs (⟨addr, xs.take n, info⟩ :: pieces) tail

/-- The decoder gets to the end of the list, one piece after another. -/
inductive DecodesAll (decode : PieceDecoder α β) : Nat → List α → Prop
  | nil {addr : Nat} : DecodesAll decode addr []
  | step {addr n : Nat} {xs : List α} {info : β} (h : decode addr xs = some (n, info))
      (hpos : 0 < n) (hle : n ≤ xs.length) (hrest : DecodesAll decode (addr + n) (xs.drop n)) :
      DecodesAll decode addr xs

/-- Each piece starts where the one before it ends, the first one at `addr`. -/
def Contiguous : (addr : Nat) → List (Nat × List α) → Prop
  | _, [] => True
  | addr, (start, items) :: rows => start = addr ∧ Contiguous (addr + items.length) rows

namespace Swept

variable {decode : PieceDecoder α β} {addr : Nat} {xs tail : List α} {pieces : List (Piece α β)}

/-- The pieces and what is left over make up the list. -/
theorem flatMap_append (h : Swept decode addr xs pieces tail) :
    pieces.flatMap Piece.items ++ tail = xs := by
  induction h with
  | stop h => rfl
  | step h hpos hle hrest ih =>
      rw [List.flatMap_cons, List.append_assoc, ih, List.take_append_drop]

theorem contiguous (h : Swept decode addr xs pieces tail) :
    Contiguous addr (pieces.map fun piece ↦ (piece.addr, piece.items)) := by
  induction h with
  | stop h => exact trivial
  | step h hpos hle hrest ih =>
      refine ⟨rfl, ?_⟩
      rwa [List.length_take_of_le hle]

/-- Nothing is left over exactly if the decoder gets to the end. -/
theorem tail_eq_nil_iff (h : Swept decode addr xs pieces tail) :
    tail = [] ↔ DecodesAll decode addr xs := by
  induction h with
  | stop h =>
      constructor
      · rintro rfl
        exact .nil
      · intro hall
        cases hall with
        | nil => rfl
        | step h' => rw [h] at h'; cases h'
  | step h hpos hle hrest ih =>
      rw [ih]
      constructor
      · exact .step h hpos hle
      · intro hall
        cases hall with
        | nil => exact absurd hpos (Nat.not_lt.mpr hle)
        | step h' hpos' hle' hrest' =>
            rw [h] at h'
            cases h'
            exact hrest'

/-- The pieces alone make up the list exactly if the decoder gets to the end. -/
theorem flatMap_eq_iff (h : Swept decode addr xs pieces tail) :
    pieces.flatMap Piece.items = xs ↔ DecodesAll decode addr xs := by
  rw [← h.tail_eq_nil_iff, ← h.flatMap_append]
  constructor
  · intro heq
    exact List.append_right_eq_self.mp heq.symm
  · rintro rfl
    rw [List.append_nil]

end Swept

end LowerIrUtils.Text
