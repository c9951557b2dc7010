import LowerIrUtils.Bits.LittleEndian
import LowerIrUtils.Text.Hex
import LowerIrUtils.Text.Rows

/-!
# The memory dump

`write_hexdump` and `write_hexdump_row` of `src/sim.rs`, and a reader for the lines they
print.  The loop of `write_hexdump` keeps the row before, padded with zeros to 16 bytes,
and whether it has printed a star for it; it is the general `collapse` of the rows, which
keeps a partial row and the last one (`hexdumpLoop_eq`).  So the memory can be read back
from the text (`hexdump_lossless`).
-/

namespace LowerIrUtils.Sim

open Bits Text

/-! ## The lines printed -/

/-- What the loop of `write_hexdump_row` prints for byte `i`. -/
def hexColumn (bytes : List Byte) (i : Nat) : List Char :=
  (if i = 8 then [' '] else []) ++
    match bytes[i]? with
    | some b => hex 2 b.toNat ++ [' ']
    | none => [' ', ' ', ' ']

/-- The character of a byte in the gutter. -/
def gutterChar (b : Byte) : Char :=
  if 0x20 ≤ b.toNat ∧ b.toNat < 0x7f then .ofNat b.toNat else '.'

/-- `write_hexdump_row`, up to the line break. -/
def writeHexdumpRow (addr : Nat) (bytes : List Byte) : String :=
  let columns := (List.range 16).flatMap (hexColumn bytes)
  let gutter := bytes.map gutterChar ++ List.replicate (16 - bytes.length) ' '
  .ofList (hex 8 addr ++ ':' :: ' ' :: (columns ++ ' ' :: '|' :: (gutter ++ ['|'])))

/-- `let mut row = [0u8; 16]; row[..chunk.len()].copy_from_slice(chunk)`. -/
def padRow (chunk : List Byte) : List Byte := chunk ++ List.replicate (16 - chunk.length) 0

/-- The loop of `write_hexdump` over a memory of `len` bytes, from chunk number `offset` on. -/
def hexdumpLoop (len : Nat) :
    (offset : Nat) → (prevRow : Option (List Byte)) → (starActive : Bool) →
      List (List Byte) → List String
  | _, _, _, [] => []
  | offset, prevRow, starActive, chunk :: chunks =>
      let row := padRow chunk
      let isFull := chunk.length = 16
      let last := offset = (len - 1) / 16
      if isFull ∧ ¬ last ∧ prevRow = some row then
        if starActive then hexdumpLoop len (offset + 1) (some row) starActive chunks
        else "*" :: hexdumpLoop len (offset + 1) (some row) true chunks
      else
        writeHexdumpRow (offset * 16) chunk :: hexdumpLoop len (offset + 1) (some row) false chunks

/-- `write_hexdump`. -/
def writeHexdump (mem : List Byte) : List String :=
  hexdumpLoop mem.length 0 none false (chunks 16 mem)

/-! ## Reading a line back -/

/-- Read the bytes of `n` columns, the first of which is number `i`.  A blank column ends the
row. -/
def readColumns : (i n : Nat) → List Char → Option (List Byte)
  | _, 0, _ => some []
  | i, n + 1, cs =>
      match if i = 8 then cs.drop 1 else cs with
      | hi :: lo :: _ :: rest =>
          if hi = ' ' then some []
          else do
            let b ← readHex [hi, lo]
            let bytes ← readColumns (i + 1) n rest
            some (.ofNat 8 b :: bytes)
      | _ => none

/-- Read a row: the address, up to the colon, and the bytes of the 16 columns after it. -/
def readRow (cs : List Char) : Option (Line (List Byte)) := do
  let addr ← readHex (cs.takeWhile (· ≠ ':'))
  let bytes ← readColumns 0 16 ((cs.dropWhile (· ≠ ':')).drop 2)
  some (.row addr bytes)

/-- Read a line. -/
def readLine (line : String) : Option (Line (List Byte)) :=
  if line = "*" then some .star else readRow line.toList

/-- Read a dump: the lines, and with them the rows the stars stand for. -/
def readDump (dump : List String) : Option (List Byte) := do
  let lines ← dump.mapM readLine
  let rows ← restore 16 0 none lines
  some rows.flatten

theorem readColumns_hexColumn (bytes : List Byte) (i n : Nat) (rest : List Char) :
    readColumns i n ((List.range' i n).flatMap (hexColumn bytes) ++ rest) =
      some ((bytes.drop i).take n) := by
  induction n generalizing i with
  | zero => rfl
  | succ n ih =>
      -- the gap before column 8 is skipped
      have hgap (cs : List Char) :
          (if i = 8 then ((if i = 8 then [' '] else []) ++ cs).drop 1
            else (if i = 8 then [' '] else []) ++ cs) = cs := by
        by_cases h8 : i = 8
        · rw [if_pos h8, if_pos h8]
          rfl
        · rw [if_neg h8, if_neg h8]
          rfl
      rw [List.range'_succ, List.flatMap_cons, hexColumn, List.append_assoc, List.append_assoc,
        readColumns, hgap]
      cases hb : bytes[i]? with
      | none =>
          have hdrop : bytes.drop i = [] := List.drop_eq_nil_of_le (List.getElem?_eq_none_iff.mp hb)
          rw [hdrop]
          rfl
      | some b =>
          have hsep : hexValue ' ' = none := by decide
          obtain ⟨hi, lo, hhex, hread, hblank⟩ := exists_hex_two b.isLt hsep
          have hdrop : bytes.drop i = b :: bytes.drop (i + 1) := by
            obtain ⟨hlt, hget⟩ := List.getElem?_eq_some_iff.mp hb
            rw [List.drop_eq_getElem_cons hlt, hget]
          rw [hdrop]
          simp only [hhex, List.cons_append, List.nil_append, if_neg hblank, hread, ih,
            Option.bind_eq_bind, Option.bind_some, List.take_succ_cons, BitVec.ofNat_toNat,
            BitVec.setWidth_eq]

theorem readRow_toList_writeHexdumpRow (addr : Nat) {bytes : List Byte}
    (h : bytes.length ≤ 16) :
    readRow (writeHexdumpRow addr bytes).toList = some (.row addr bytes) := by
  have hcolon : hexValue ':' = none := by decide
  rw [writeHexdumpRow, String.toList_ofList, readRow, takeWhile_hex hcolon, dropWhile_hex hcolon,
    readHex_hex, List.range_eq_range']
  simp only [List.drop_succ_cons, List.drop_zero, readColumns_hexColumn, List.take_of_length_le h,
    Option.bind_eq_bind, Option.bind_some]

/-- What a line stands for is read back from its text. -/
def lineText : Line (List Byte) → String
  | .row addr bytes => writeHexdumpRow addr bytes
  | .star => "*"

theorem writeHexdumpRow_ne_star (addr : Nat) (bytes : List Byte) :
    writeHexdumpRow addr bytes ≠ "*" := by
  intro h
  have hcolon : ':' ∈ (writeHexdumpRow addr bytes).toList := by
    rw [writeHexdumpRow, String.toList_ofList]
    simp
  rw [h] at hcolon
  exact absurd hcolon (by decide)

/-- A line is read back, if it has no more than 16 bytes. -/
theorem readLine_lineText {line : Line (List Byte)}
    (h : ∀ addr bytes, line = .row addr bytes → bytes.length ≤ 16) :
    readLine (lineText line) = some line := by
  cases line with
  | star => rfl
  | row addr bytes =>
      rw [lineText, readLine, if_neg (writeHexdumpRow_ne_star addr bytes),
        readRow_toList_writeHexdumpRow addr (h addr bytes rfl)]

theorem mapM_readLine_lineText {lines : List (Line (List Byte))}
    (h : ∀ addr bytes, .row addr bytes ∈ lines → bytes.length ≤ 16) :
    (lines.map lineText).mapM readLine = some lines := by
  have hlines : ∀ line ∈ lines, readLine (lineText line) = some (id line) := by
    intro line hline
    exact readLine_lineText fun addr bytes heq ↦ h addr bytes (heq ▸ hline)
  rw [mapM_map_eq_some hlines, List.map_id]

/-! ## The loop -/

/-- The rows that are printed whatever they hold: a partial row, and the last one. -/
def keepsRow (len offset : Nat) (chunk : List Byte) : Bool :=
  chunk.length ≠ 16 || offset = (len - 1) / 16

theorem keepsRow_eq_false_iff {len offset : Nat} {chunk : List Byte} :
    keepsRow len offset chunk = false ↔ chunk.length = 16 ∧ ¬ offset = (len - 1) / 16 := by
  simp [keepsRow]

theorem padRow_of_length_eq {chunk : List Byte} (h : chunk.length = 16) : padRow chunk = chunk := by
  rw [padRow, h]
  exact List.append_nil chunk

/-- The loop leaves out repeated rows, where all the rows but the last are full. -/
theorem hexdumpLoop_eq {len offset : Nat} {prev : Option (List Byte)} {star : Bool}
    {rows : List (List Byte)} (hfull : ∀ c ∈ rows.dropLast, c.length = 16) :
    hexdumpLoop len offset prev star rows =
      (collapse 16 (keepsRow len) offset prev star rows).map lineText := by
  induction rows generalizing offset prev star with
  | nil => rfl
  | cons chunk rows ih =>
      have hcond : (chunk.length = 16 ∧ ¬ offset = (len - 1) / 16 ∧ prev = some (padRow chunk)) ↔
          keepsRow len offset chunk = false ∧ prev = some chunk := by
        rw [keepsRow_eq_false_iff]
        constructor
        · rintro ⟨hlen, hlast, heq⟩
          exact ⟨⟨hlen, hlast⟩, by rw [heq, padRow_of_length_eq hlen]⟩
        · rintro ⟨⟨hlen, hlast⟩, heq⟩
          exact ⟨hlen, hlast, by rw [heq, padRow_of_length_eq hlen]⟩
      have hrest (star : Bool) : hexdumpLoop len (offset + 1) (some (padRow chunk)) star rows =
          (collapse 16 (keepsRow len) (offset + 1) (some chunk) star rows).map lineText := by
        cases rows with
        | nil => rfl
        | cons chunk' rows =>
            have hlen : chunk.length = 16 := hfull chunk List.mem_cons_self
            rw [padRow_of_length_eq hlen]
            exact ih fun c hc ↦ hfull c (List.mem_cons_of_mem _ hc)
      rw [hexdumpLoop, collapse]
      by_cases h : keepsRow len offset chunk = false ∧ prev = some chunk
      · rw [if_pos h, if_pos (hcond.mpr h)]
        cases star with
        | true => exact hrest true
        | false => exact congrArg ("*" :: ·) (hrest true)
      · rw [if_neg h, if_neg (hcond.not.mpr h)]
        exact congrArg (writeHexdumpRow (offset * 16) chunk :: ·) (hrest false)

theorem keepsLast_chunks (mem : List Byte) :
    KeepsLast (keepsRow mem.length) 0 (chunks 16 mem) := by
  intro ys x h
  have hcount : (ys ++ [x]).length = (mem.length + (16 - 1)) / 16 := by
    rw [← h, length_chunks]
  rw [List.length_append, List.length_singleton] at hcount
  have hlast : 0 + ys.length = (mem.length - 1) / 16 := by omega
  simp [keepsRow, hlast]

/-! ## The dump as a whole -/

theorem gutterChar_ne_newline (b : Byte) : gutterChar b ≠ '\n' := by
  have hprintable : ∀ n < 0x7f, 0x20 ≤ n → Char.ofNat n ≠ '\n' := by decide
  unfold gutterChar
  split
  · rename_i h
    exact hprintable b.toNat h.2 h.1
  · decide

theorem newline_not_mem_hexColumn (bytes : List Byte) (i : Nat) :
    '\n' ∉ hexColumn bytes i := by
  unfold hexColumn
  rw [List.mem_append, not_or]
  constructor
  · split <;> decide
  · cases bytes[i]? with
    | none => decide
    | some b =>
        rw [List.mem_append, not_or]
        exact ⟨not_mem_hex (by decide), by decide⟩

/-- A line has no line break in it. -/
theorem newline_not_mem_lineText (line : Line (List Byte)) : '\n' ∉ (lineText line).toList := by
  cases line with
  | star => decide
  | row addr bytes =>
      rw [lineText, writeHexdumpRow, String.toList_ofList]
      simp only [List.mem_append, List.mem_cons, List.mem_flatMap, List.mem_map,
        List.mem_replicate, not_or, not_exists, not_and]
      refine ⟨not_mem_hex (by decide), by decide, by decide,
        fun i _ ↦ newline_not_mem_hexColumn bytes i, by decide, by decide,
        ⟨fun b _ ↦ gutterChar_ne_newline b, fun _ ↦ by decide⟩, by decide, List.not_mem_nil⟩

/-- **The memory dump loses nothing.**  The dump, a line at a time, is read back as the memory,
the stars being expanded.  Every star stands between two rows, and the addresses printed
are increasing multiples of 16. -/
theorem hexdump_lossless (mem : List Byte) :
    (∀ line ∈ writeHexdump mem, '\n' ∉ line.toList) ∧
      readDump (writeHexdump mem) = some mem ∧
      ∃ lines, (writeHexdump mem).mapM readLine = some lines ∧
        StarsBetweenRows lines ∧ (∀ pre post, lines ≠ pre ++ .star :: .star :: post) ∧
        (addresses lines).Pairwise (· < ·) ∧ ∀ addr ∈ addresses lines, 16 ∣ addr := by
  have hcollapsed : Collapsed 16 0 none (chunks 16 mem)
      (collapse 16 (keepsRow mem.length) 0 none false (chunks 16 mem)) :=
    collapsed_collapse (keepsLast_chunks mem) none
  have hdump : writeHexdump mem =
      (collapse 16 (keepsRow mem.length) 0 none false (chunks 16 mem)).map lineText :=
    hexdumpLoop_eq fun _ ↦ length_of_mem_dropLast_chunks (by decide)
  generalize collapse 16 (keepsRow mem.length) 0 none false (chunks 16 mem) = lines at *
  have hread : (lines.map lineText).mapM readLine = some lines :=
    mapM_readLine_lineText fun addr bytes h ↦
      length_le_of_mem_chunks (hcollapsed.mem_of_row_mem h)
  have hrestore := hcollapsed.restore_eq (by decide)
  have hstars : StarsBetweenRows lines := hcollapsed.starsBetweenRows
  obtain ⟨hincreasing, haddr⟩ := hcollapsed.addresses_spec (by decide)
  rw [hdump]
  refine ⟨?_, ?_, lines, hread, hstars, ?_, hincreasing, fun addr h ↦ (haddr addr h).2⟩
  · intro text htext
    obtain ⟨line, -, rfl⟩ := List.mem_map.mp htext
    exact newline_not_mem_lineText line
  · rw [readDump, hread, Option.bind_eq_bind, Option.bind_some, hrestore, Option.bind_eq_bind,
      Option.bind_some, flatten_chunks (by decide)]
  · rintro pre post rfl
    obtain ⟨-, addr, x, post', heq⟩ := hstars pre (.star :: post) rfl
    cases heq

end LowerIrUtils.Sim
