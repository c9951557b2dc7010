import Mathlib.Data.List.Basic

/-!
# Reports

A report is a list of lines in sections.  A section has a title, its entries a line each, and a
blank line at its end; if there are no entries a line says so.  A reader gets the entries
of a section back as long as they are not blank (`readSection_titled`).

Numbers in a report are in decimal (`readNat_repr`, `readInt_toString`).
-/

namespace LowerIrUtils.Text

/-! ## Separators -/

section

variable {α : Type*} {p : α → Bool} {xs : List α}

theorem takeWhile_append_cons (h : ∀ x ∈ xs, p x) {y : α} (hy : p y = false) (ys : List α) :
    (xs ++ y :: ys).takeWhile p = xs := by
  rw [List.takeWhile_append_of_pos h, List.takeWhile_cons_of_neg (by simp [hy]), List.append_nil]

theorem dropWhile_append_cons (h : ∀ x ∈ xs, p x) {y : α} (hy : p y = false) (ys : List α) :
    (xs ++ y :: ys).dropWhile p = y :: ys := by
  rw [List.dropWhile_append_of_pos h, List.dropWhile_cons_of_neg (by simp [hy])]

end

/-! ## Sections -/

/-- The line of a section without entries. -/
def noEntries : String := "(none)"

/-- A section of a report. -/
def titled (title : String) (entries : List String) : List String :=
  title :: (if entries.isEmpty then [noEntries] else entries) ++ [""]

/-- Read a section, up to its blank line. -/
def readSection (title : String) : List String → Option (List String × List String)
  | [] => none
  | line :: lines =>
      if line = title then
        let entries := lines.takeWhile (· ≠ "")
        some (if entries = [noEntries] then [] else entries, (lines.dropWhile (· ≠ "")).drop 1)
      else none

/-- The entries of a section are read back. -/
theorem readSection_titled (title : String) {entries : List String}
    (hblank : ∀ entry ∈ entries, entry ≠ "") (hnone : entries ≠ [noEntries])
    (rest : List String) :
    readSection title (titled title entries ++ rest) = some (entries, rest) := by
  have hlines : ∀ line ∈ (if entries.isEmpty then [noEntries] else entries),
      decide (line ≠ "") = true := by
    intro line hline
    split at hline
    · rw [List.mem_singleton.mp hline]
      decide
    · exact decide_eq_true (hblank line hline)
  rw [titled, List.cons_append, List.cons_append, List.append_assoc, List.singleton_append,
    readSection, if_pos rfl]
  simp only [takeWhile_append_cons hlines (y := "") (by decide),
    dropWhile_append_cons hlines (y := "") (by decide), List.drop_succ_cons, List.drop_zero]
  cases entries with
  | nil => rfl
  | cons entry entries =>
      rw [List.isEmpty_cons, if_neg Bool.false_ne_true, if_neg hnone]

/-! ## Numbers -/

/-- The number a numeral stands for. -/
def readNat (cs : List Char) : Nat := Nat.ofDigitChars 10 cs 0

@[simp] theorem readNat_repr (n : Nat) : readNat n.repr.toList = n := by
  rw [readNat, Nat.toList_repr, Nat.ofDigitChars_ten_toDigits]

theorem isDigit_of_mem_repr {n : Nat} {c : Char} (h : c ∈ n.repr.toList) : c.isDigit := by
  rw [Nat.toList_repr] at h
  exact Nat.isDigit_of_mem_toDigits (by decide) (by decide) h

/-- The integer a numeral with or without a sign stands for. -/
def readInt : List Char → Int
  | '-' :: cs => -(readNat cs : Int)
  | cs => readNat cs

/-- An integer is read back. -/
@[simp] theorem readInt_toString (n : Int) : readInt (toString n).toList = n := by
  cases n with
  | ofNat m =>
      have hdigit : ∀ c ∈ m.repr.toList, c.isDigit := fun c ↦ isDigit_of_mem_repr
      have hread : readInt m.repr.toList = readNat m.repr.toList := by
        generalize m.repr.toList = cs at hdigit
        cases cs with
        | nil => rfl
        | cons c cs =>
            have hne : c ≠ '-' := by
              rintro rfl
              exact absurd (hdigit '-' List.mem_cons_self) (by decide)
            unfold readInt
            split
            · rename_i heq
              exact absurd (List.cons.inj heq).1 hne
            · rfl
      exact hread.trans (congrArg Int.ofNat (readNat_repr m))
  | negSucc m =>
      show readInt ("-" ++ (m + 1).repr).toList = _
      rw [String.toList_append]
      exact congrArg (fun k : Nat ↦ -(k : Int)) (readNat_repr (m + 1))

end LowerIrUtils.Text
