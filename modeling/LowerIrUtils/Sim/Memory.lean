import LowerIrUtils.Bits.LittleEndian
import LowerIrUtils.Bits.WriteLog
import LowerIrUtils.Sim.Value

/-!
# The flat memory of the simulator

`load_from` and `store_to` of `src/sim.rs`, and the laws the rest of the development
reads memory through: which accesses are in bounds, and what a byte is afterwards.

A `Memory` carries the bound of a Rust `Vec<u8>`, at most `isize::MAX` bytes.  With
it the overflow check of `addr.checked_add(size)` adds nothing to the length check
that follows it (`Memory.endOf_eq_some_iff`).
-/

namespace LowerIrUtils.Sim

open Clif Bits

/-- The memory of a simulator, a Rust `Vec<u8>`. -/
structure Memory where
  bytes : List Byte
  length_lt : bytes.length < 2 ^ 63
deriving DecidableEq

namespace Memory

/-- `Vec::new()`. -/
def empty : Memory := ⟨[], Nat.two_pow_pos 63⟩

/-- `Vec::len`. -/
def length (mem : Memory) : Nat := mem.bytes.length

/-- `mem[addr..addr + new.len()].copy_from_slice(new)`, after its bounds check. -/
def write (mem : Memory) (addr : Nat) (new : List Byte) : Memory :=
  ⟨overwrite mem.bytes addr new, by rw [length_overwrite]; exact mem.length_lt⟩

@[simp] theorem length_write (mem : Memory) (addr : Nat) (new : List Byte) :
    (mem.write addr new).length = mem.length := length_overwrite mem.bytes addr new

/-- The bytes `addr..addr + size`, for a slice that is in bounds. -/
def read (mem : Memory) (addr size : Nat) : List Byte := (mem.bytes.drop addr).take size

theorem length_read {mem : Memory} {addr size : Nat} (h : addr + size ≤ mem.length) :
    (mem.read addr size).length = size := by
  have h' : addr + size ≤ mem.bytes.length := h
  rw [read, List.length_take, List.length_drop]
  omega

theorem getElem?_read (mem : Memory) {addr size j : Nat} (hj : j < size) :
    (mem.read addr size)[j]? = mem.bytes[addr + j]? := by
  rw [read, List.getElem?_take_of_lt hj, List.getElem?_drop]

theorem read_write {mem : Memory} {addr : Nat} {new : List Byte}
    (h : addr + new.length ≤ mem.length) : (mem.write addr new).read addr new.length = new :=
  take_drop_overwrite h

theorem write_read (mem : Memory) (addr size : Nat) :
    mem.write addr (mem.read addr size) = mem := by
  obtain ⟨bytes, hlt⟩ := mem
  simp only [write, read, overwrite_take_drop]

/-- The end of an access of `size` bytes at `addr`, if the access is in bounds:
`addr.checked_add(size)` and the comparison with `mem.len()` in one. -/
def endOf (mem : Memory) (addr : BitVec 64) (size : Nat) : Option Nat :=
  if addr.toNat + size < 2 ^ 64 then
    if mem.length < addr.toNat + size then none else some (addr.toNat + size)
  else none

/-- An access is in bounds exactly if its end, computed without wrap-around, is. -/
theorem endOf_eq_some_iff {mem : Memory} {addr : BitVec 64} {size e : Nat} :
    mem.endOf addr size = some e ↔ e = addr.toNat + size ∧ addr.toNat + size ≤ mem.length := by
  have hlen : mem.length < 2 ^ 63 := mem.length_lt
  unfold endOf
  split
  · split
    · rename_i h
      simp only [reduceCtorEq, false_iff]
      omega
    · rename_i h
      rw [Option.some.injEq]
      omega
  · rename_i h
    simp only [reduceCtorEq, false_iff]
    omega

theorem endOf_eq_none_iff {mem : Memory} {addr : BitVec 64} {size : Nat} :
    mem.endOf addr size = none ↔ mem.length < addr.toNat + size := by
  constructor
  · intro h
    by_contra hle
    have hsome := endOf_eq_some_iff.mpr ⟨rfl, Nat.le_of_not_lt hle⟩
    rw [h] at hsome
    cases hsome
  · intro h
    cases hend : mem.endOf addr size with
    | none => rfl
    | some e =>
        have hle := (endOf_eq_some_iff.mp hend).2
        omega

end Memory

/-- The error of an access out of bounds. -/
def outOfBounds (mem : Memory) (addr : BitVec 64) (size : Nat) : SimError :=
  .outOfBounds addr.toNat size mem.length

/-- The decoding of a loaded slice, by type. -/
def SimValue.ofBytes (bytes : List Byte) : Ty → Option SimValue
  | .I8 => some (.I8 (bytes.headD 0))
  | .I16 => some (.I16 (.ofNat 16 (ofLe bytes)))
  | .I32 => some (.I32 (.ofNat 32 (ofLe bytes)))
  | .I64 => some (.I64 (.ofNat 64 (ofLe bytes)))
  | .F32 => some (.F32 (.ofNat 32 (ofLe bytes)))
  | .F64 => some (.F64 (.ofNat 64 (ofLe bytes)))
  | _ => none

/-- The bytes of a value, `to_le_bytes` (for `I8`, the byte itself). -/
def SimValue.toBytes : SimValue → List Byte
  | .I8 x => [x]
  | .I16 x => toLe 2 x.toNat
  | .I32 x => toLe 4 x.toNat
  | .I64 x => toLe 8 x.toNat
  | .F32 x => toLe 4 x.toNat
  | .F64 x => toLe 8 x.toNat

/-- `load_from`. -/
def loadFrom (mem : Memory) (addr : BitVec 64) (ty : Ty) : Except SimError SimValue :=
  let size := ty.bytes
  match mem.endOf addr size with
  | none => .error (outOfBounds mem addr size)
  | some _ =>
      match SimValue.ofBytes (mem.read addr.toNat size) ty with
      | some v => .ok v
      | none => .error (.typeMismatch s!"load type {ty.name}")

/-- `store_to`, with the memory it leaves behind. -/
def storeTo (mem : Memory) (addr : BitVec 64) (val : SimValue) :
    Memory × Except SimError Unit :=
  let size := val.ty.bytes
  match mem.endOf addr size with
  | none => (mem, .error (outOfBounds mem addr size))
  | some _ => (mem.write addr.toNat val.toBytes, .ok ())

/-! ## Values as bytes -/

/-- The bit pattern of a value as a number. -/
def SimValue.bits : SimValue → Nat
  | .I8 x => x.toNat
  | .I16 x => x.toNat
  | .I32 x => x.toNat
  | .I64 x => x.toNat
  | .F32 x => x.toNat
  | .F64 x => x.toNat

@[simp] theorem SimValue.length_toBytes (v : SimValue) : v.toBytes.length = v.ty.bytes := by
  cases v <;> simp [toBytes, ty, Ty.bytes, Ty.bits]

/-- The bytes of a value are those of its bit pattern. -/
theorem SimValue.toBytes_eq (v : SimValue) : v.toBytes = toLe v.ty.bytes v.bits := by
  cases v with
  | I8 x => simp [toBytes, toLe, ty, bits, Ty.bytes, Ty.bits]
  | _ => simp [toBytes, ty, bits, Ty.bytes, Ty.bits]

theorem SimValue.isSome_ofBytes (bytes : List Byte) (ty : Ty) :
    (ofBytes bytes ty).isSome = ty.isSim := by
  cases ty <;> rfl

theorem SimValue.ty_ofBytes {bytes : List Byte} {ty : Ty} {v : SimValue}
    (h : ofBytes bytes ty = some v) : v.ty = ty := by
  cases ty <;> cases h <;> rfl

/-- A value decoded from as many bytes as its type has is their little-endian value. -/
theorem SimValue.bits_ofBytes {bs : List Byte} {ty : Ty} {v : SimValue}
    (h : ofBytes bs ty = some v) (hlen : bs.length = ty.bytes) : v.bits = ofLe bs := by
  have hlt := ofLe_lt bs
  rw [hlen] at hlt
  cases ty <;> cases h <;> simp only [Ty.bytes, Ty.bits] at hlen hlt
  case I8 =>
    obtain ⟨b, rfl⟩ := List.length_eq_one_iff.mp hlen
    simp [bits, ofLe]
  all_goals exact Nat.mod_eq_of_lt hlt

/-- A value survives the trip through its bytes. -/
theorem SimValue.ofBytes_toBytes (v : SimValue) : ofBytes v.toBytes v.ty = some v := by
  cases v with
  | I8 x => rfl
  | I16 x => exact congrArg (some ∘ I16) (ofNat_ofLe_toLe (n := 2) x)
  | I32 x => exact congrArg (some ∘ I32) (ofNat_ofLe_toLe (n := 4) x)
  | I64 x => exact congrArg (some ∘ I64) (ofNat_ofLe_toLe (n := 8) x)
  | F32 x => exact congrArg (some ∘ F32) (ofNat_ofLe_toLe (n := 4) x)
  | F64 x => exact congrArg (some ∘ F64) (ofNat_ofLe_toLe (n := 8) x)

/-- The bytes of a value are its little-endian encoding. -/
theorem SimValue.ofLe_toBytes (v : SimValue) : ofLe v.toBytes = v.bits :=
  (bits_ofBytes v.ofBytes_toBytes v.length_toBytes).symm

/-- The bytes a value has been decoded from are its bytes. -/
theorem SimValue.toBytes_ofBytes {bs : List Byte} {ty : Ty} {v : SimValue}
    (h : ofBytes bs ty = some v) (hlen : bs.length = ty.bytes) : v.toBytes = bs := by
  rw [toBytes_eq, bits_ofBytes h hlen, ty_ofBytes h, ← hlen, toLe_ofLe]

/-! ## What an access does -/

/-- A load succeeds exactly if it is in bounds, and gives the little-endian value of
the bytes it covers. -/
theorem loadFrom_of_le {mem : Memory} {addr : BitVec 64} {ty : Ty} (hty : ty.isSim)
    (h : addr.toNat + ty.bytes ≤ mem.length) :
    ∃ v, loadFrom mem addr ty = .ok v ∧ v.ty = ty ∧
      v.bits = ofLe (mem.read addr.toNat ty.bytes) := by
  have hend := Memory.endOf_eq_some_iff.mpr ⟨rfl, h⟩
  obtain ⟨v, hv⟩ := Option.isSome_iff_exists.mp
    ((SimValue.isSome_ofBytes (mem.read addr.toNat ty.bytes) ty).trans hty)
  refine ⟨v, ?_, SimValue.ty_ofBytes hv, SimValue.bits_ofBytes hv (Memory.length_read h)⟩
  simp only [loadFrom, hend, hv]

theorem loadFrom_of_lt {mem : Memory} {addr : BitVec 64} {ty : Ty}
    (h : mem.length < addr.toNat + ty.bytes) :
    loadFrom mem addr ty = .error (outOfBounds mem addr ty.bytes) := by
  simp only [loadFrom, Memory.endOf_eq_none_iff.mpr h]

theorem storeTo_of_le {mem : Memory} {addr : BitVec 64} {val : SimValue}
    (h : addr.toNat + val.ty.bytes ≤ mem.length) :
    storeTo mem addr val = (mem.write addr.toNat val.toBytes, .ok ()) := by
  simp only [storeTo, Memory.endOf_eq_some_iff.mpr ⟨rfl, h⟩]

theorem storeTo_of_lt {mem : Memory} {addr : BitVec 64} {val : SimValue}
    (h : mem.length < addr.toNat + val.ty.bytes) :
    storeTo mem addr val = (mem, .error (outOfBounds mem addr val.ty.bytes)) := by
  simp only [storeTo, Memory.endOf_eq_none_iff.mpr h]

/-- A store that fails has written nothing. -/
theorem storeTo_error {mem mem' : Memory} {addr : BitVec 64} {val : SimValue} {e : SimError}
    (h : storeTo mem addr val = (mem', .error e)) :
    mem' = mem ∧ e = outOfBounds mem addr val.ty.bytes := by
  rcases Nat.lt_or_ge mem.length (addr.toNat + val.ty.bytes) with hlt | hle
  · rw [storeTo_of_lt hlt] at h
    cases h
    exact ⟨rfl, rfl⟩
  · rw [storeTo_of_le hle] at h
    cases h

/-- A load that fails is out of bounds or of a type no `SimValue` has. -/
theorem loadFrom_error {mem : Memory} {addr : BitVec 64} {ty : Ty} {e : SimError}
    (h : loadFrom mem addr ty = .error e) :
    e = outOfBounds mem addr ty.bytes ∨ e = .typeMismatch s!"load type {ty.name}" := by
  simp only [loadFrom] at h
  split at h
  · cases h
    exact .inl rfl
  · split at h
    · cases h
    · cases h
      exact .inr rfl

/-- A load is refused for its type exactly if it is in bounds and no `SimValue` has the
type. -/
theorem loadFrom_eq_typeMismatch_iff {mem : Memory} {addr : BitVec 64} {ty : Ty} :
    (∃ what, loadFrom mem addr ty = .error (.typeMismatch what)) ↔
      addr.toNat + ty.bytes ≤ mem.length ∧ ty.isSim = false := by
  rcases Nat.lt_or_ge mem.length (addr.toNat + ty.bytes) with hlt | hle
  · constructor
    · rintro ⟨what, h⟩
      rw [loadFrom_of_lt hlt] at h
      cases h
    · rintro ⟨hle, -⟩
      exact absurd hle (Nat.not_le_of_lt hlt)
  · cases hty : ty.isSim with
    | true =>
        obtain ⟨v, hv, -⟩ := loadFrom_of_le hty hle
        simp [hv]
    | false =>
        have hsome := (SimValue.isSome_ofBytes (mem.read addr.toNat ty.bytes) ty).trans hty
        have hnone : SimValue.ofBytes (mem.read addr.toNat ty.bytes) ty = none :=
          Option.not_isSome_iff_eq_none.mp (ne_true_of_eq_false hsome)
        have hend := Memory.endOf_eq_some_iff.mpr ⟨rfl, hle⟩
        refine ⟨fun _ ↦ ⟨hle, rfl⟩, fun _ ↦ ⟨s!"load type {ty.name}", ?_⟩⟩
        simp only [loadFrom, hend, hnone]

/-! ## Round trips -/

/-- What has been stored is loaded back. -/
theorem loadFrom_storeTo {mem mem' : Memory} {addr : BitVec 64} {val : SimValue}
    (h : storeTo mem addr val = (mem', .ok ())) : loadFrom mem' addr val.ty = .ok val := by
  rcases Nat.lt_or_ge mem.length (addr.toNat + val.ty.bytes) with hlt | hle
  · rw [storeTo_of_lt hlt] at h
    cases h
  · rw [storeTo_of_le hle] at h
    cases h
    have hend : (mem.write addr.toNat val.toBytes).endOf addr val.ty.bytes = some _ :=
      Memory.endOf_eq_some_iff.mpr ⟨rfl, by rwa [Memory.length_write]⟩
    have hread : (mem.write addr.toNat val.toBytes).read addr.toNat val.toBytes.length =
        val.toBytes := Memory.read_write (by rwa [SimValue.length_toBytes])
    rw [SimValue.length_toBytes] at hread
    simp only [loadFrom, hend, hread, SimValue.ofBytes_toBytes]

/-- Storing what has been loaded changes nothing. -/
theorem storeTo_loadFrom {mem : Memory} {addr : BitVec 64} {ty : Ty} {v : SimValue}
    (h : loadFrom mem addr ty = .ok v) : storeTo mem addr v = (mem, .ok ()) := by
  rcases Nat.lt_or_ge mem.length (addr.toNat + ty.bytes) with hlt | hle
  · rw [loadFrom_of_lt hlt] at h
    cases h
  · have hend := Memory.endOf_eq_some_iff.mpr ⟨rfl, hle⟩
    cases hv : SimValue.ofBytes (mem.read addr.toNat ty.bytes) ty with
    | none =>
        simp only [loadFrom, hend, hv] at h
        cases h
    | some u =>
        simp only [loadFrom, hend, hv] at h
        cases h
        have hbytes := SimValue.toBytes_ofBytes hv (Memory.length_read hle)
        rw [storeTo_of_le (by rwa [SimValue.ty_ofBytes hv]), hbytes, Memory.write_read]

end LowerIrUtils.Sim
