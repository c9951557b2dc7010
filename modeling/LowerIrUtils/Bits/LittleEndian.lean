import Mathlib.Data.BitVec
import Mathlib.Tactic.Ring

/-!
# Little-endian bytes

`toLe n x` is the `n` bytes of the number `x`, least significant first, and `ofLe`
reads such a list back.  The two are inverse to each other on numbers below
`256 ^ n` and lists of length `n`.
-/

namespace LowerIrUtils.Bits

/-- A byte. -/
abbrev Byte := BitVec 8

/-- The `n` least significant bytes of `x`, least significant first. -/
def toLe : Nat → Nat → List Byte
  | 0, _ => []
  | n + 1, x => BitVec.ofNat 8 x :: toLe n (x / 256)

/-- The number with the given bytes, least significant first. -/
def ofLe : List Byte → Nat
  | [] => 0
  | b :: bs => b.toNat + 256 * ofLe bs

@[simp] theorem length_toLe (n x : Nat) : (toLe n x).length = n := by
  induction n generalizing x with
  | zero => rfl
  | succ n ih => simp only [toLe, List.length_cons, ih]

theorem ofLe_lt (bs : List Byte) : ofLe bs < 256 ^ bs.length := by
  induction bs with
  | nil => simp [ofLe]
  | cons b bs ih =>
      have hb : b.toNat < 256 := b.isLt
      rw [ofLe, List.length_cons, pow_succ]
      omega

/-- Reading back the bytes of a number gives what of it fits in them. -/
theorem ofLe_toLe (n x : Nat) : ofLe (toLe n x) = x % 256 ^ n := by
  induction n generalizing x with
  | zero => simp [toLe, ofLe, Nat.mod_one]
  | succ n ih =>
      rw [toLe, ofLe, ih, BitVec.toNat_ofNat, pow_succ' 256 n, Nat.mod_mul]

theorem ofLe_toLe_of_lt {n x : Nat} (h : x < 256 ^ n) : ofLe (toLe n x) = x := by
  rw [ofLe_toLe, Nat.mod_eq_of_lt h]

/-- The bytes of the number a list of bytes stands for are the list. -/
theorem toLe_ofLe (bs : List Byte) : toLe bs.length (ofLe bs) = bs := by
  induction bs with
  | nil => rfl
  | cons b bs ih =>
      have hb : b.toNat < 256 := b.isLt
      have hdiv : (b.toNat + 256 * ofLe bs) / 256 = ofLe bs := by omega
      have hhead : BitVec.ofNat 8 (b.toNat + 256 * ofLe bs) = b := by
        apply BitVec.eq_of_toNat_eq
        rw [BitVec.toNat_ofNat]
        omega
      rw [List.length_cons, ofLe, toLe, hdiv, hhead, ih]

/-- A word survives the trip through its bytes. -/
theorem ofNat_ofLe_toLe {n : Nat} (x : BitVec (8 * n)) :
    BitVec.ofNat (8 * n) (ofLe (toLe n x.toNat)) = x := by
  have hx : x.toNat < 256 ^ n := by
    have h := x.isLt
    rwa [pow_mul] at h
  rw [ofLe_toLe_of_lt hx, BitVec.ofNat_toNat, BitVec.setWidth_eq]

end LowerIrUtils.Bits
