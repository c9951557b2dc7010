import LowerIrUtils.Sim.Division
import LowerIrUtils.Sim.FloatOps
import LowerIrUtils.Sim.MemoryLog
import LowerIrUtils.Sim.Typing

/-!
# Memory, floats and divisions of the reference semantics

The operations of the simulator beyond the integer instructions, each as the one of the
reference semantics: loads and stores on the map from addresses to bytes, float operations
rounded once unless they give a NaN, a bitcast that keeps the bits, and a division wherever
there is a quotient.
-/

namespace LowerIrUtils.Clif.Reference

open Bits

namespace Mem

theorem load_succ_of_some {mem : Mem} {addr : Nat} {b : Byte} (h : mem addr = some b) (n : Nat) :
    mem.load addr (n + 1) = (mem.load (addr + 1) n).map (b :: ·) := by
  simp only [load, h, Option.bind_eq_bind, Option.bind_some]
  cases mem.load (addr + 1) n <;> rfl

theorem load_succ_of_none {mem : Mem} {addr : Nat} (h : mem addr = none) (n : Nat) :
    mem.load addr (n + 1) = none := by
  simp only [load, h, Option.bind_eq_bind, Option.bind_none]

/-- A store changes the bytes it covers and no others. -/
theorem store_apply (mem : Mem) (addr : Nat) (bytes : List Byte) (a : Nat) :
    mem.store addr bytes a =
      if addr ≤ a ∧ a < addr + bytes.length then bytes[a - addr]? else mem a := by
  induction bytes generalizing addr with
  | nil =>
      have hno : ¬ (addr ≤ a ∧ a < addr + ([] : List Byte).length) := by
        rw [List.length_nil]
        omega
      rw [store, if_neg hno]
  | cons b bytes ih =>
      rw [List.length_cons]
      show (if a = addr then some b else mem.store (addr + 1) bytes a) = _
      by_cases ha : a = addr
      · subst ha
        rw [if_pos rfl, if_pos ⟨Nat.le_refl a, by omega⟩, Nat.sub_self]
        rfl
      · rw [if_neg ha, ih (addr + 1)]
        by_cases hin : addr + 1 ≤ a ∧ a < addr + 1 + bytes.length
        · have hsub : a - addr = a - (addr + 1) + 1 := by omega
          rw [if_pos hin, if_pos (by omega), hsub, List.getElem?_cons_succ]
        · rw [if_neg hin, if_neg (by omega)]

end Mem

end LowerIrUtils.Clif.Reference

namespace LowerIrUtils.Sim

open Clif Bits Ieee754 Reference

/-! ## Memory -/

/-- The bytes of the memory, by address. -/
def Memory.toMem (mem : Memory) : Mem := fun a ↦ mem.bytes[a]?

namespace Memory

variable {mem : Memory} {addr n : Nat}

theorem load_of_le (h : addr + n ≤ mem.length) :
    mem.toMem.load addr n = some (mem.read addr n) := by
  induction n generalizing addr with
  | zero => rfl
  | succ n ih =>
      have hlt : addr < mem.bytes.length := by
        have hlen : mem.length = mem.bytes.length := rfl
        omega
      have hbyte : mem.toMem addr = some mem.bytes[addr] := List.getElem?_eq_getElem hlt
      rw [Mem.load_succ_of_some hbyte, ih (by omega)]
      show some (mem.bytes[addr] :: (mem.bytes.drop (addr + 1)).take n) =
        some ((mem.bytes.drop addr).take (n + 1))
      rw [List.drop_eq_getElem_cons hlt, List.take_succ_cons]

theorem load_of_lt (hn : 0 < n) (h : mem.length < addr + n) : mem.toMem.load addr n = none := by
  induction n generalizing addr with
  | zero => exact absurd hn (Nat.lt_irrefl 0)
  | succ n ih =>
      cases hbyte : mem.toMem addr with
      | none => exact Mem.load_succ_of_none hbyte n
      | some b =>
          have hlt : addr < mem.length := (List.getElem?_eq_some_iff.mp hbyte).1
          rw [Mem.load_succ_of_some hbyte, ih (by omega) (by omega)]
          rfl

/-- Writing in bounds is storing. -/
theorem toMem_write {new : List Byte} (h : addr + new.length ≤ mem.length) :
    (mem.write addr new).toMem = mem.toMem.store addr new := by
  funext a
  rw [Mem.store_apply]
  show (overwrite mem.bytes addr new)[a]? = _
  rw [getElem?_overwrite]
  by_cases hin : addr ≤ a ∧ a < addr + new.length
  · have hlen : mem.length = mem.bytes.length := rfl
    have ha : a < mem.bytes.length := by omega
    have hsub : a - addr < new.length := by omega
    rw [if_pos hin, List.getElem?_eq_getElem ha, Option.map_some, if_pos hin.1,
      List.getElem?_eq_getElem hsub, Option.getD_some]
  · rw [if_neg hin]
    show _ = mem.bytes[a]?
    cases mem.bytes[a]? with
    | none => rfl
    | some b =>
        rw [Option.map_some]
        split
        · rw [List.getElem?_eq_none (by omega)]
          rfl
        · rfl

end Memory

/-- A value decoded from its bytes has these bytes. -/
theorem toBits_ofBytes {bytes : List Byte} {ty : Ty} {v : SimValue}
    (h : SimValue.ofBytes bytes ty = some v) (hlen : bytes.length = ty.bytes) :
    v.toBits = .ofBytes ty bytes := by
  cases ty with
  | I8 =>
      cases h
      obtain ⟨b, rfl⟩ := List.length_eq_one_iff.mp hlen
      refine congrArg (BitVal.mk .I8) ?_
      show b = BitVec.ofNat 8 (b.toNat + 256 * 0)
      rw [Nat.mul_zero, Nat.add_zero, BitVec.ofNat_toNat, BitVec.setWidth_eq]
  | I16 => cases h; rfl
  | I32 => cases h; rfl
  | I64 => cases h; rfl
  | F32 => cases h; rfl
  | F64 => cases h; rfl
  | _ => cases h

theorem toBytes_toBits (v : SimValue) : v.toBits.toBytes = v.toBytes := by
  rw [SimValue.toBytes_eq]
  cases v <;> rfl

/-- The address of an access at a pointer. -/
theorem address_toBits {base : SimValue} (h : base.ty = .I64) (offset : BitVec 32) :
    base.toBits.address offset = some (accessAddr base offset) := by
  rw [← toNat_effectiveAddr]
  cases base with
  | I64 x => rfl
  | _ => cases h

theorem bytes_pos {ty : Ty} (h : ty.isSim) : 0 < ty.bytes := by
  cases ty <;> first | decide | cases h

/-! ## Floats -/

/-- A float operation gives the rounded result, unless that is a NaN. -/
theorem applyBinary_float_toBits [NanBits] {op : Opcode} (hop : op.isFloatBinary)
    {a b : SimValue} (hab : b.ty = a.ty) (ha : a.ty.isSimFloat) :
    ∃ v z, applyBinary op a b = .ok v ∧ a.toBits.floatBinary op b.toBits = some z ∧
      (z.datum ≠ .nan → z = v.toBits) := by
  obtain ⟨f, hf⟩ := Opcode.exists_arith hop
  cases a with
  | F32 x =>
      cases b with
      | F32 y =>
          obtain ⟨r, hr, -, hexact⟩ := applyBinary_F32_of_arith hf x y
          refine ⟨.F32 r, ⟨.F32, F32.round f x y⟩, hr, ?_, ?_⟩
          · show (op.arith.map _).map _ = _
            rw [hf]
            rfl
          · intro hnan
            exact congrArg (BitVal.mk .F32) (hexact hnan).symm
      | _ => cases hab
  | F64 x =>
      cases b with
      | F64 y =>
          obtain ⟨r, hr, -, hexact⟩ := applyBinary_F64_of_arith hf x y
          refine ⟨.F64 r, ⟨.F64, F64.round f x y⟩, hr, ?_, ?_⟩
          · show (op.arith.map _).map _ = _
            rw [hf]
            rfl
          · intro hnan
            exact congrArg (BitVal.mk .F64) (hexact hnan).symm
      | _ => cases hab
  | _ => cases ha

theorem applyUnary_fneg_toBits {a : SimValue} (ha : a.ty.isSimFloat) (ty : Ty) :
    ∃ v, applyUnary .fneg a ty = .ok v ∧ a.toBits.fneg = some v.toBits := by
  cases a with
  | F32 x => exact ⟨_, rfl, rfl⟩
  | F64 x => exact ⟨_, rfl, rfl⟩
  | _ => cases ha

theorem floatCompare_toBits [NanBits] (cond : FloatCC) {a b : SimValue} (ha : a.ty.isSimFloat)
    (hb : b.ty = a.ty) :
    a.toBits.floatCompare cond b.toBits = some (ofBool (fcmp cond a b)).toBits := by
  rw [toBits_ofBool, fcmp_floats cond ha hb]
  exact if_pos (by rw [SimValue.ty_toBits, SimValue.ty_toBits]; exact ⟨ha, hb⟩)

/-! ## Bitcasts -/

/-- A bitcast keeps the bits. -/
theorem applyUnary_bitcast_toBits {a : SimValue} {ty : Ty} (hty : ty.isSim)
    (hbits : a.ty.bits = ty.bits) :
    ∃ v, applyUnary .bitcast a ty = .ok v ∧ a.toBits.bitcast ty = some v.toBits := by
  cases a with
  | I8 x =>
      change 8 = ty.bits at hbits
      cases ty with
      | I8 =>
          refine ⟨_, rfl, congrArg (some ∘ BitVal.mk .I8) ?_⟩
          exact (setWidth_signExtend (by decide) x).symm
      | _ => first | exact absurd hbits (by decide) | cases hty
  | I16 x =>
      change 16 = ty.bits at hbits
      cases ty with
      | I16 =>
          refine ⟨_, rfl, congrArg (some ∘ BitVal.mk .I16) ?_⟩
          exact (setWidth_signExtend (by decide) x).symm
      | _ => first | exact absurd hbits (by decide) | cases hty
  | I32 x =>
      change 32 = ty.bits at hbits
      have hx := (setWidth_signExtend (v := 64) (by decide) x).symm
      cases ty with
      | I32 => exact ⟨_, rfl, congrArg (some ∘ BitVal.mk .I32) hx⟩
      | F32 => exact ⟨_, rfl, congrArg (some ∘ BitVal.mk .F32) hx⟩
      | _ => first | exact absurd hbits (by decide) | cases hty
  | I64 x =>
      change 64 = ty.bits at hbits
      cases ty with
      | I64 => exact ⟨_, rfl, rfl⟩
      | F64 => exact ⟨_, rfl, rfl⟩
      | _ => first | exact absurd hbits (by decide) | cases hty
  | F32 x =>
      change 32 = ty.bits at hbits
      have hx : x = (x.setWidth 64).setWidth 32 := by
        rw [BitVec.setWidth_setWidth_of_le _ (by decide), BitVec.setWidth_eq]
      cases ty with
      | I32 => exact ⟨_, rfl, congrArg (some ∘ BitVal.mk .I32) hx⟩
      | F32 => exact ⟨_, rfl, congrArg (some ∘ BitVal.mk .F32) hx⟩
      | _ => first | exact absurd hbits (by decide) | cases hty
  | F64 x =>
      change 64 = ty.bits at hbits
      cases ty with
      | I64 => exact ⟨_, rfl, rfl⟩
      | F64 => exact ⟨_, rfl, rfl⟩
      | _ => first | exact absurd hbits (by decide) | cases hty

/-! ## Divisions -/

theorem isDivision_of_isIntBinary {op : Opcode} (hop : op.isIntBinary)
    (href : op.isReference = false) : op.isDivision := by
  cases op with
  | sdiv | udiv | srem | urem => rfl
  | iadd | isub | imul | band | bor | bxor | ishl | ushr | sshr => cases href
  | _ => cases hop

/-- A quotient follows the policy, and its division does not overflow. -/
theorem divide_of_quotient {op : Opcode} {w : Nat} {x y q : BitVec w}
    (h : quotient op x y = some q) :
    Reference.divide op x y = some q ∧ ¬ (op = .sdiv ∧ w ≠ 64 ∧ x = .intMin w ∧ y = -1) := by
  unfold quotient at h
  split at h
  · cases h
  · rename_i hy
    cases op with
    | sdiv =>
        dsimp only at h
        split at h
        · cases h
        · rename_i hover
          cases h
          refine ⟨?_, fun h ↦ hover ⟨h.2.2.1, h.2.2.2⟩⟩
          rw [Reference.divide, if_neg (not_or.mpr ⟨hy, hover⟩)]
    | udiv =>
        cases h
        refine ⟨?_, fun h ↦ by cases h.1⟩
        rw [Reference.divide, if_neg hy]
    | urem =>
        cases h
        refine ⟨?_, fun h ↦ by cases h.1⟩
        rw [Reference.divide, if_neg hy]
    | srem =>
        cases h
        refine ⟨?_, fun h ↦ by cases h.1⟩
        rw [Reference.divide, if_neg hy]
    | _ => cases h

/-- Where there is a quotient, the simulator divides. -/
theorem applyBinary_of_quotient [NanBits] {op : Opcode} (hop : op.isDivision) {a b : SimValue}
    {ty : Ty} (hty : ty.isSimInt) {x y q : BitVec ty.bits} (ha : a.toBits = ⟨ty, x⟩)
    (hb : b.toBits = ⟨ty, y⟩) (h : quotient op x y = some q) :
    ∃ v, applyBinary op a b = .ok v ∧ v.toBits = ⟨ty, q⟩ := by
  obtain ⟨r, hr, hiff⟩ := divide_setWidth (.of_isSimInt hty) hop x y
  obtain ⟨v, hv, hbits⟩ := applyBinary_of_applyInt hty ha hb hr
  obtain ⟨hdivide, hover⟩ := divide_of_quotient h
  refine ⟨v, hv, ?_⟩
  rw [hbits, Option.some.inj ((hiff.mpr hover).symm.trans hdivide)]

end LowerIrUtils.Sim
