import LowerIrUtils.Bits.LittleEndian
import LowerIrUtils.Text.Hex
import LowerIrUtils.Text.Sweep

/-!
# The disassembly listing

`capstone_for` and `format_disassembly` of `src/disasm.rs`.  Capstone is a parameter
(`CapstoneLib`); what is assumed of it is that `disasm_all` is a linear sweep of a partial
decoder (`CapstoneLib.Sweeps`), which stops without an error at the first bytes it cannot
decode.

The loop of `format_disassembly` prints a line for each instruction, and nothing for the bytes
after the last one.  So the listing covers the buffer exactly if the decoder gets to its
end (`listing_covers_iff`).
-/

namespace LowerIrUtils.Disasm

open Bits Text

/-! ## Capstone -/

/-- The text of an instruction, `Insn::mnemonic` and `Insn::op_str`. -/
structure InsnText where
  mnemonic : Option String
  opStr : Option String
deriving DecidableEq

/-- `capstone::Insn`: an address, the bytes of the instruction and its text. -/
abbrev Insn := Piece Byte InsnText

/-- The configurations of Capstone in use, all of them with `detail(false)`. -/
inductive Config where
  | x86Mode64Intel
  | arm64Arm
  | riscvRiscV64RiscVC
  | syszDefault
deriving DecidableEq

/-- What is used of Capstone: building a decoder, and `disasm_all`. -/
structure CapstoneLib where
  Capstone : Type
  Error : Type
  build : Config → Except Error Capstone
  disasmAll : Capstone → List Byte → (addr : Nat) → Except Error (List Insn)

/-- With its default settings a decoder is swept over the buffer: where `disasm_all` returns
instructions, they are those the decoder for single instructions gives one after another,
up to the first bytes that are no instruction. -/
def CapstoneLib.Sweeps (lib : CapstoneLib) (decode : lib.Capstone → PieceDecoder Byte InsnText) :
    Prop :=
  ∀ cs bytes addr insns, lib.disasmAll cs bytes addr = .ok insns →
    ∃ tail, Swept (decode cs) addr bytes insns tail

/-- `DisasmError`. -/
inductive DisasmError (lib : CapstoneLib) where
  | unsupportedArch (arch : String)
  | capstone (err : lib.Error)
  | fmt

/-- `capstone_for`, for a target with the name `isa`. -/
def capstoneFor (lib : CapstoneLib) (isa : String) : Except (DisasmError lib) lib.Capstone :=
  match isa with
  | "x64" => (lib.build .x86Mode64Intel).mapError .capstone
  | "aarch64" => (lib.build .arm64Arm).mapError .capstone
  | "riscv64" => (lib.build .riscvRiscV64RiscVC).mapError .capstone
  | "s390x" => (lib.build .syszDefault).mapError .capstone
  | other => .error (.unsupportedArch other)

/-! ## The listing -/

/-- The bytes of an instruction in hexadecimal, separated by blanks. -/
def hexBytes (bytes : List Byte) : List Char :=
  [' '].intercalate (bytes.map fun b ↦ hex 2 b.toNat)

/-- The line of an instruction: `0x{:04x}  {hex:<24}  {mnem}{sep}{ops}`. -/
def insnLine (ins : Insn) : String :=
  let hexs := hexBytes ins.items
  let mnem := (ins.info.mnemonic.getD "").toList
  let ops := (ins.info.opStr.getD "").toList
  let sep := if ops.isEmpty then [] else [' ']
  .ofList ('0' :: 'x' :: (hex 4 ins.addr ++ ' ' :: ' ' ::
    (hexs ++ List.replicate (24 - hexs.length) ' ' ++ ' ' :: ' ' :: (mnem ++ sep ++ ops))))

/-- `format_disassembly`, with the text a line at a time.  Writing to a string does not fail. -/
def formatDisassembly (lib : CapstoneLib) (bytes : List Byte) (isa : String) :
    Except (DisasmError lib) (List String) := do
  let cs ← capstoneFor lib isa
  let insns ← (lib.disasmAll cs bytes 0).mapError .capstone
  .ok (insns.map insnLine)

/-- `JitDisasm`. -/
structure JitDisasm where
  bytes : List Byte
  text : List String

/-- The end of `define_function_with_disasm`, for a function that was compiled to `bytes`. -/
def jitDisasm (lib : CapstoneLib) (bytes : List Byte) (isa : String) :
    Except (DisasmError lib) JitDisasm := do
  let text ← formatDisassembly lib bytes isa
  .ok ⟨bytes, text⟩

/-! ## Reading a line back -/

/-- Read bytes in hexadecimal up to a blank in place of one. -/
def readBytes : List Char → Option (List Byte)
  | ' ' :: _ => some []
  | hi :: lo :: _ :: rest => do
      let b ← readHex [hi, lo]
      let bytes ← readBytes rest
      some (.ofNat 8 b :: bytes)
  | _ => none

/-- Read the address and the bytes of a line. -/
def readInsnLine (line : String) : Option (Nat × List Byte) :=
  match line.toList with
  | '0' :: 'x' :: cs => do
      let addr ← readHex (cs.takeWhile (· ≠ ' '))
      let bytes ← readBytes ((cs.dropWhile (· ≠ ' ')).drop 2)
      some (addr, bytes)
  | _ => none

theorem readBytes_hexBytes (bytes : List Byte) (rest : List Char) :
    readBytes (hexBytes bytes ++ ' ' :: ' ' :: rest) = some bytes := by
  induction bytes with
  | nil => rfl
  | cons b bytes ih =>
      have hsep : hexValue ' ' = none := by decide
      obtain ⟨hi, lo, hhex, hread, hblank⟩ := exists_hex_two b.isLt hsep
      -- a blank comes after the byte, and then the next byte or another blank
      obtain ⟨rest', hrest, hrest'⟩ : ∃ rest', hexBytes (b :: bytes) ++ ' ' :: ' ' :: rest =
          hi :: lo :: ' ' :: rest' ∧ readBytes rest' = some bytes := by
        cases bytes with
        | nil => exact ⟨' ' :: rest, by simp [hexBytes, hhex], rfl⟩
        | cons b' bytes =>
            exact ⟨hexBytes (b' :: bytes) ++ ' ' :: ' ' :: rest, by simp [hexBytes, hhex], ih⟩
      rw [hrest, readBytes]
      · simp [hread, hrest']
      · exact hblank

/-- Blanks can be moved to the front of blanks. -/
theorem replicate_blank_append (n : Nat) (rest : List Char) :
    List.replicate n ' ' ++ ' ' :: ' ' :: rest =
      ' ' :: ' ' :: (List.replicate n ' ' ++ rest) := by
  induction n with
  | zero => rfl
  | succ n ih => rw [List.replicate_succ, List.cons_append, ih, List.cons_append]

/-- The line of an instruction is read back. -/
theorem readInsnLine_insnLine (ins : Insn) :
    readInsnLine (insnLine ins) = some (ins.addr, ins.items) := by
  have hblank : hexValue ' ' = none := by decide
  rw [readInsnLine, insnLine, String.toList_ofList]
  simp only [takeWhile_hex hblank, dropWhile_hex hblank, readHex_hex, List.drop_succ_cons,
    List.drop_zero, List.append_assoc, replicate_blank_append, readBytes_hexBytes,
    Option.bind_eq_bind, Option.bind_some]

theorem mapM_readInsnLine (insns : List Insn) :
    (insns.map insnLine).mapM readInsnLine =
      some (insns.map fun ins ↦ (ins.addr, ins.items)) :=
  mapM_map_eq_some fun ins _ ↦ readInsnLine_insnLine ins

/-! ## What the listing covers -/

/-- The lines account for every byte of the buffer: the bytes they show make up the buffer, and
each address is that of the line before and the number of bytes shown there, from 0 on. -/
def Covers (text : List String) (bytes : List Byte) : Prop :=
  ∃ rows, text.mapM readInsnLine = some rows ∧ rows.flatMap Prod.snd = bytes ∧ Contiguous 0 rows

section

variable {ε ε' α β : Type}

theorem bind_eq_ok_iff {r : Except ε α} {f : α → Except ε β} {y : β} :
    r >>= f = .ok y ↔ ∃ x, r = .ok x ∧ f x = .ok y := by
  cases r with
  | error e =>
      constructor
      · intro h
        cases h
      · rintro ⟨x, h, -⟩
        cases h
  | ok x =>
      constructor
      · intro h
        exact ⟨x, rfl, h⟩
      · rintro ⟨x', h, h'⟩
        cases h
        exact h'

theorem mapError_eq_ok_iff {r : Except ε α} {f : ε → ε'} {y : α} :
    r.mapError f = .ok y ↔ r = .ok y := by
  cases r <;> simp [Except.mapError]

end

section

variable {lib : CapstoneLib} {decode : lib.Capstone → PieceDecoder Byte InsnText}
  {bytes : List Byte} {isa : String}

theorem formatDisassembly_eq_ok_iff {text : List String} :
    formatDisassembly lib bytes isa = .ok text ↔
      ∃ cs insns, capstoneFor lib isa = .ok cs ∧ lib.disasmAll cs bytes 0 = .ok insns ∧
        insns.map insnLine = text := by
  simp only [formatDisassembly, bind_eq_ok_iff, mapError_eq_ok_iff, Except.ok.injEq]
  constructor
  · rintro ⟨cs, hcs, insns, hinsns, htext⟩
    exact ⟨cs, insns, hcs, hinsns, htext⟩
  · rintro ⟨cs, insns, hcs, hinsns, htext⟩
    exact ⟨cs, hcs, insns, hinsns, htext⟩

/-- The lines of a sweep cover the buffer exactly if the decoder gets to its end. -/
theorem covers_iff_of_swept {decode : PieceDecoder Byte InsnText} {insns : List Insn}
    {tail : List Byte} (h : Swept decode 0 bytes insns tail) :
    Covers (insns.map insnLine) bytes ↔ DecodesAll decode 0 bytes := by
  rw [← h.flatMap_eq_iff]
  have hbytes : (insns.map fun ins ↦ (ins.addr, ins.items)).flatMap Prod.snd =
      insns.flatMap Piece.items := List.flatMap_map ..
  constructor
  · rintro ⟨rows, hrows, hcover, -⟩
    rw [mapM_readInsnLine] at hrows
    cases hrows
    rwa [hbytes] at hcover
  · intro hcover
    exact ⟨_, mapM_readInsnLine insns, by rwa [hbytes], h.contiguous⟩

theorem formatDisassembly_covers_iff (hsweeps : lib.Sweeps decode) {text : List String}
    (hok : formatDisassembly lib bytes isa = .ok text) :
    ∃ cs, capstoneFor lib isa = .ok cs ∧
      (Covers text bytes ↔ DecodesAll (decode cs) 0 bytes) := by
  obtain ⟨cs, insns, hcs, hinsns, rfl⟩ := formatDisassembly_eq_ok_iff.mp hok
  obtain ⟨tail, hswept⟩ := hsweeps cs bytes 0 insns hinsns
  exact ⟨cs, hcs, covers_iff_of_swept hswept⟩

/-- **The listing covers the buffer exactly if the decoder gets to its end.**  Otherwise the
bytes from the first one on that is no instruction are missing, though
`format_disassembly` returns `Ok`.  The same goes for the text that is captured with a
function, and its code. -/
theorem listing_covers_iff (hsweeps : lib.Sweeps decode) :
    (∀ text, formatDisassembly lib bytes isa = .ok text → ∃ cs, capstoneFor lib isa = .ok cs ∧
      (Covers text bytes ↔ DecodesAll (decode cs) 0 bytes)) ∧
    ∀ dump, jitDisasm lib bytes isa = .ok dump → dump.bytes = bytes ∧
      ∃ cs, capstoneFor lib isa = .ok cs ∧
        (Covers dump.text dump.bytes ↔ DecodesAll (decode cs) 0 dump.bytes) := by
  constructor
  · intro text hok
    exact formatDisassembly_covers_iff hsweeps hok
  · intro dump hok
    obtain ⟨text, htext, hdump⟩ := bind_eq_ok_iff.mp hok
    cases hdump
    exact ⟨rfl, formatDisassembly_covers_iff hsweeps htext⟩

end

/-! ## A return followed by a constant -/

/-- The decoder, as far as the `ret` of x86 goes: the byte `c3`. -/
def decodeRet : PieceDecoder Byte InsnText := fun _ bytes ↦
  if bytes.head? = some 0xc3 then some (1, ⟨some "ret", some ""⟩) else none

/-- The sweep of `decodeRet`. -/
def sweepRet : Nat → List Byte → List Insn
  | _, [] => []
  | addr, b :: bytes =>
      if b = 0xc3 then ⟨addr, [b], some "ret", some ""⟩ :: sweepRet (addr + 1) bytes else []

/-- Capstone, as far as it is a sweep of `decodeRet`. -/
def retLib : CapstoneLib where
  Capstone := Unit
  Error := Unit
  build _ := .ok ()
  disasmAll _ bytes addr := .ok (sweepRet addr bytes)

theorem sweeps_retLib : retLib.Sweeps fun _ ↦ decodeRet := by
  intro cs bytes addr insns hok
  cases hok
  induction bytes generalizing addr with
  | nil => exact ⟨[], .stop rfl⟩
  | cons b bytes ih =>
      by_cases hb : b = 0xc3
      · subst hb
        obtain ⟨tail, hswept⟩ := ih (addr + 1)
        exact ⟨tail, .step (n := 1) rfl (by decide) (Nat.le_add_left 1 _) hswept⟩
      · refine ⟨b :: bytes, ?_⟩
        rw [sweepRet, if_neg hb]
        exact .stop (if_neg (by simpa using hb))

/-- Two returns, `c3 c3`, are covered. -/
theorem listing_covers_ret :
    ∃ text, formatDisassembly retLib [0xc3, 0xc3] "x64" = .ok text ∧
      Covers text [0xc3, 0xc3] := by
  have hok : formatDisassembly retLib [0xc3, 0xc3] "x64" = .ok _ := rfl
  obtain ⟨cs, -, hiff⟩ := (listing_covers_iff sweeps_retLib).1 _ hok
  refine ⟨_, rfl, hiff.mpr ?_⟩
  have hlast : DecodesAll (decodeRet) 1 [0xc3] := .step (n := 1) rfl (by decide) (by decide) .nil
  exact .step (n := 1) rfl (by decide) (by decide) hlast

/-- The listing of `c3` followed by `06`, which is no instruction, leaves out the second
byte. -/
theorem listing_drops_tail :
    ¬ ∀ (lib : CapstoneLib) (decode : lib.Capstone → PieceDecoder Byte InsnText)
      (bytes : List Byte) (isa : String) (text : List String),
      lib.Sweeps decode → formatDisassembly lib bytes isa = .ok text → Covers text bytes := by
  intro h
  obtain ⟨rows, hrows, hcover, -⟩ := h retLib _ [0xc3, 0x06] "x64" _ sweeps_retLib rfl
  rw [mapM_readInsnLine] at hrows
  cases hrows
  cases hcover

end LowerIrUtils.Disasm
