import Mathlib.Data.List.Basic
import Mathlib.Algebra.Ring.Nat

/-!
# Hexadecimal numerals

Lower-case hexadecimal numerals, padded with zeros to a width, and a reader for them.  The
reader gives the number back at every width (`readHex_hex`), and a numeral contains no
character that is not a digit (`isSome_hexValue_of_mem_hex`), so that it can be told from
the separators around it (`takeWhile_hex`).
-/

namespace LowerIrUtils.Text

/-- `{n:0width x}`: at least `width` digits. -/
def hex (width n : Nat) : List Char :=
  let digits := Nat.toDigits 16 n
  List.replicate (width - digits.length) '0' ++ digits

/-- The value of a digit. -/
def hexValue (c : Char) : Option Nat :=
  if '0' ≤ c ∧ c ≤ '9' then some (c.toNat - 48)
  else if 'a' ≤ c ∧ c ≤ 'f' then some (c.toNat - 87)
  else none

/-- Read digits, the number so far being `acc`. -/
def readHexFrom (acc : Nat) : List Char → Option Nat
  | [] => some acc
  | c :: cs => (hexValue c).bind fun d ↦ readHexFrom (16 * acc + d) cs

/-- The number a numeral stands for. -/
def readHex (cs : List Char) : Option Nat := readHexFrom 0 cs

theorem hexValue_digitChar {d : Nat} (h : d < 16) : hexValue d.digitChar = some d := by
  have hall : ∀ d < 16, hexValue d.digitChar = some d := by decide
  exact hall d h

theorem readHexFrom_append (acc : Nat) (cs ds : List Char) :
    readHexFrom acc (cs ++ ds) = (readHexFrom acc cs).bind (readHexFrom · ds) := by
  induction cs generalizing acc with
  | nil => rfl
  | cons c cs ih =>
      rw [List.cons_append, readHexFrom, readHexFrom]
      cases hexValue c with
      | none => rfl
      | some d => exact ih _

theorem readHexFrom_toDigits (n : Nat) : readHexFrom 0 (Nat.toDigits 16 n) = some n := by
  induction n using Nat.strongRecOn with
  | ind n ih =>
      rcases Nat.lt_or_ge n 16 with hlt | hge
      · rw [Nat.toDigits_of_lt_base hlt, readHexFrom, hexValue_digitChar hlt]
        simp [readHexFrom]
      · rw [Nat.toDigits_of_base_le (by decide) hge, readHexFrom_append,
          ih (n / 16) (Nat.div_lt_self (by omega) (by decide)), Option.bind_some, readHexFrom,
          hexValue_digitChar (Nat.mod_lt n (by decide)), Option.bind_some, readHexFrom,
          Nat.div_add_mod]

theorem readHexFrom_replicate_zero (k : Nat) :
    readHexFrom 0 (List.replicate k '0') = some 0 := by
  induction k with
  | zero => rfl
  | succ k ih => exact ih

/-- A numeral is read back as its number. -/
@[simp] theorem readHex_hex (width n : Nat) : readHex (hex width n) = some n := by
  rw [readHex, hex, readHexFrom_append, readHexFrom_replicate_zero, Option.bind_some,
    readHexFrom_toDigits]

/-- What can be read consists of digits. -/
theorem isSome_hexValue_of_readHexFrom {acc n : Nat} {cs : List Char}
    (h : readHexFrom acc cs = some n) {c : Char} (hc : c ∈ cs) : (hexValue c).isSome := by
  induction cs generalizing acc with
  | nil => cases hc
  | cons c' cs ih =>
      rw [readHexFrom] at h
      cases hd : hexValue c' with
      | none =>
          rw [hd] at h
          cases h
      | some d =>
          rw [hd] at h
          rcases List.mem_cons.mp hc with rfl | hmem
          · rw [hd]
            rfl
          · exact ih h hmem

theorem isSome_hexValue_of_mem_hex {width n : Nat} {c : Char} (h : c ∈ hex width n) :
    (hexValue c).isSome :=
  isSome_hexValue_of_readHexFrom (readHex_hex width n) h

/-- A character that is no digit does not occur in a numeral. -/
theorem not_mem_hex {width n : Nat} {c : Char} (h : hexValue c = none) : c ∉ hex width n := by
  intro hmem
  have hsome := isSome_hexValue_of_mem_hex hmem
  rw [h] at hsome
  cases hsome

/-- A number that fits in the width is printed at the width. -/
theorem length_hex {width n : Nat} (hw : 0 < width) (h : n < 16 ^ width) :
    (hex width n).length = width := by
  have hle := (Nat.length_toDigits_le_iff (by decide) hw).mpr h
  rw [hex, List.length_append, List.length_replicate]
  omega

/-- Two digits, for a number below 256.  They are read back, and the first one is not
mistaken for a separator. -/
theorem exists_hex_two {n : Nat} (h : n < 256) {sep : Char} (hsep : hexValue sep = none) :
    ∃ hi lo, hex 2 n = [hi, lo] ∧ readHex [hi, lo] = some n ∧ hi ≠ sep := by
  obtain ⟨hi, lo, hhex⟩ := List.length_eq_two.mp (length_hex (by decide) h)
  refine ⟨hi, lo, hhex, hhex ▸ readHex_hex 2 n, ?_⟩
  rintro rfl
  have hmem : hi ∈ hex 2 n := hhex ▸ List.mem_cons_self
  exact not_mem_hex hsep hmem

/-! ## Up to a separator -/

section

variable {sep : Char} (hsep : hexValue sep = none) (width n : Nat) (rest : List Char)

include hsep

theorem forall_mem_hex_ne : ∀ c ∈ hex width n, decide (c ≠ sep) = true := by
  intro c hc
  apply decide_eq_true
  rintro rfl
  exact not_mem_hex hsep hc

/-- A numeral ends at the first separator. -/
theorem takeWhile_hex : (hex width n ++ sep :: rest).takeWhile (· ≠ sep) = hex width n := by
  rw [List.takeWhile_append_of_pos (forall_mem_hex_ne hsep width n)]
  simp

theorem dropWhile_hex : (hex width n ++ sep :: rest).dropWhile (· ≠ sep) = sep :: rest := by
  rw [List.dropWhile_append_of_pos (forall_mem_hex_ne hsep width n)]
  simp

end

/-! ## Line by line -/

/-- If every item is read back from its text, so is a list of them. -/
theorem mapM_map_eq_some {α β γ : Type} {print : α → β} {read : β → Option γ} {f : α → γ}
    {items : List α} (h : ∀ a ∈ items, read (print a) = some (f a)) :
    (items.map print).mapM read = some (items.map f) := by
  induction items with
  | nil => rfl
  | cons a items ih =>
      have hitems := ih fun a' ha' ↦ h a' (List.mem_cons_of_mem a ha')
      rw [List.map_cons, List.mapM_cons, h a List.mem_cons_self, hitems]
      rfl

end LowerIrUtils.Text
