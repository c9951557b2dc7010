import LowerIrUtils.Sim.StepBudget

/-!
# Memory over a whole run

The memory of a run is its initial memory overwritten by the stores that succeeded, in
order: `bytes_configAfter`.  So every byte is the one of the latest successful store
that covers it, and a load returns the little-endian value of such bytes.

Addresses are stated over the integers here.  An access at the base `b` with offset `o`
is at `(b + o) mod 2 ^ 64`, and it succeeds exactly if its end, which is computed
without wrap-around, is within the memory.
-/

namespace LowerIrUtils.Sim

open Clif Bits

/-! ## Addresses -/

/-- The integer a base stands for: signed, and for a float its bit pattern. -/
def SimValue.baseInt : SimValue → Int
  | .I8 x => x.toInt
  | .I16 x => x.toInt
  | .I32 x => x.toInt
  | .I64 x => x.toInt
  | .F32 x => x.toNat
  | .F64 x => x.toInt

/-- The address of an access, the sum of base and offset modulo `2 ^ 64`. -/
def accessAddr (base : SimValue) (offset : BitVec 32) : Nat :=
  ((base.baseInt + offset.toInt) % 2 ^ 64).toNat

theorem asU64_eq_ofInt (base : SimValue) : base.asU64 = .ofInt 64 base.baseInt := by
  cases base with
  | F32 x => rw [SimValue.asU64, SimValue.baseInt, BitVec.ofInt_natCast, BitVec.ofNat_toNat]
  | F64 x => exact BitVec.ofInt_toInt.symm
  | I64 x => exact BitVec.ofInt_toInt.symm
  | _ => rfl

/-- The source's 64-bit addition is the sum modulo `2 ^ 64`. -/
theorem toNat_effectiveAddr (base : SimValue) (offset : BitVec 32) :
    (effectiveAddr base offset).toNat = accessAddr base offset := by
  rw [effectiveAddr, asU64_eq_ofInt, BitVec.signExtend, ← BitVec.ofInt_add, BitVec.toNat_ofInt]
  rfl

/-! ## The store log of a run -/

/-- The write of an instruction: that of a store whose operands are bound and whose
access ends within the memory. -/
def writeOf (state : RunState) : InstructionData → Option (Write Byte)
  | .store _ x p offset =>
      match state.registers x, state.registers p with
      | some val, some base =>
          let addr := accessAddr base offset
          if addr + val.ty.bytes ≤ state.memory.length then some ⟨addr, val.toBytes⟩ else none
      | _, _ => none
  | _ => none

/-- The write of the instruction a configuration executes next. -/
def nextWrite (func : Function) (config : Config) : Option (Write Byte) :=
  match config.status with
  | .halted _ => none
  | .running p => (func.instAt p).bind fun inst ↦ writeOf config.state (func.data inst)

variable [RustCore]

/-- The writes of the stores that succeeded among the first `n` instructions, oldest
first. -/
def Simulator.storeLog (sim : Simulator) (func : Function) (args : List SimValue) :
    Nat → List (Write Byte)
  | 0 => []
  | n + 1 => sim.storeLog func args n ++ (nextWrite func (sim.configAfter func args n)).toList

section Step

variable {func : Function} {state : RunState} {inst : Inst}

/-- A store that ends within the memory. -/
theorem step_store_of_le {opcode : Opcode} {x p : Value} {offset : BitVec 32}
    {val base : SimValue} (hx : state.registers x = some val) (hp : state.registers p = some base)
    (h : accessAddr base offset + val.ty.bytes ≤ state.memory.length) :
    step func state inst (.store opcode x p offset) =
      (bindResults func inst opcode []
        { state with memory := state.memory.write (accessAddr base offset) val.toBytes },
        .continue_) := by
  rw [← toNat_effectiveAddr] at h ⊢
  show storeStep func state inst opcode x p offset = _
  simp only [storeStep, RunState.get_eq_ok hx, RunState.get_eq_ok hp, storeTo_of_le h]

/-- A store that does not. -/
theorem step_store_of_lt {opcode : Opcode} {x p : Value} {offset : BitVec 32}
    {val base : SimValue} (hx : state.registers x = some val) (hp : state.registers p = some base)
    (h : state.memory.length < accessAddr base offset + val.ty.bytes) :
    step func state inst (.store opcode x p offset) =
      (state, .error (.outOfBounds (accessAddr base offset) val.ty.bytes state.memory.length)) := by
  rw [← toNat_effectiveAddr] at h ⊢
  show storeStep func state inst opcode x p offset = _
  simp only [storeStep, RunState.get_eq_ok hx, RunState.get_eq_ok hp, storeTo_of_lt h]
  rfl

theorem compute_load_of_result {opcode : Opcode} {arg r : Value} {offset : BitVec 32}
    {base : SimValue} (harg : state.registers arg = some base)
    (hr : func.dfg.instResults inst = [r]) :
    compute func state inst (.load opcode arg offset) =
      loadFrom state.memory (effectiveAddr base offset) (func.dfg.valueType r) := by
  rw [compute_load harg, resultTy, hr]
  rfl

/-- A load that ends within the memory. -/
theorem step_load_of_le (opcode : Opcode) {arg r : Value} {offset : BitVec 32} {base : SimValue}
    (harg : state.registers arg = some base) (hr : func.dfg.instResults inst = [r])
    (hty : (func.dfg.valueType r).isSim)
    (h : accessAddr base offset + (func.dfg.valueType r).bytes ≤ state.memory.length) :
    ∃ v, step func state inst (.load opcode arg offset) =
        (bindResults func inst opcode [v] state, .continue_) ∧
      v.ty = func.dfg.valueType r ∧
      v.bits = ofLe (state.memory.read (accessAddr base offset) (func.dfg.valueType r).bytes) := by
  rw [← toNat_effectiveAddr] at h ⊢
  obtain ⟨v, hv, hvty, hbits⟩ := loadFrom_of_le hty h
  refine ⟨v, ?_, hvty, hbits⟩
  show computeStep func state inst (.load opcode arg offset) = _
  rw [computeStep, compute_load_of_result harg hr, hv]
  rfl

/-- A load that does not. -/
theorem step_load_of_lt {opcode : Opcode} {arg r : Value} {offset : BitVec 32} {base : SimValue}
    (harg : state.registers arg = some base) (hr : func.dfg.instResults inst = [r])
    (h : state.memory.length < accessAddr base offset + (func.dfg.valueType r).bytes) :
    step func state inst (.load opcode arg offset) =
      (state, .error (.outOfBounds (accessAddr base offset) (func.dfg.valueType r).bytes
        state.memory.length)) := by
  rw [← toNat_effectiveAddr] at h ⊢
  show computeStep func state inst (.load opcode arg offset) = _
  rw [computeStep, compute_load_of_result harg hr, loadFrom_of_lt h]
  rfl

/-- Only a store changes the memory. -/
theorem memory_step_of_not_store {data : InstructionData}
    (hdata : ∀ opcode x p offset, data ≠ .store opcode x p offset) :
    (step func state inst data).1.memory = state.memory := by
  rcases hstep : step func state inst data with ⟨state', r⟩
  cases effect_of_step hstep with
  | fault he => rfl
  | value h => exact memory_bindResults func inst _ _ state
  | store hx hp hle => exact absurd rfl (hdata _ _ _ _)
  | branch hdest h => exact RunState.memory_log state _
  | return_ h => exact RunState.memory_log state _
  | call h hz => exact RunState.memory_log state _

/-- An instruction changes the memory by its write. -/
theorem bytes_step (data : InstructionData) :
    (step func state inst data).1.memory.bytes =
      replay state.memory.bytes (writeOf state data).toList := by
  cases data with
  | store opcode x p offset =>
      cases hx : state.registers x with
      | none =>
          have hget : state.get x = .error (.undefinedValue x) := by simp only [RunState.get, hx]
          have hwrite : writeOf state (.store opcode x p offset) = none := by
            simp only [writeOf, hx]
          rw [hwrite]
          show (storeStep func state inst opcode x p offset).1.memory.bytes = _
          simp only [storeStep, hget]
          rfl
      | some val =>
          cases hp : state.registers p with
          | none =>
              have hget : state.get p = .error (.undefinedValue p) := by
                simp only [RunState.get, hp]
              have hwrite : writeOf state (.store opcode x p offset) = none := by
                simp only [writeOf, hx, hp]
              rw [hwrite]
              show (storeStep func state inst opcode x p offset).1.memory.bytes = _
              simp only [storeStep, RunState.get_eq_ok hx, hget]
              rfl
          | some base =>
              rcases Nat.lt_or_ge state.memory.length
                (accessAddr base offset + val.ty.bytes) with hlt | hle
              · have hwrite : writeOf state (.store opcode x p offset) = none := by
                  simp only [writeOf, hx, hp]
                  exact if_neg (Nat.not_le_of_lt hlt)
                rw [step_store_of_lt hx hp hlt, hwrite]
                rfl
              · have hwrite : writeOf state (.store opcode x p offset) =
                    some ⟨accessAddr base offset, val.toBytes⟩ := by
                  simp only [writeOf, hx, hp]
                  exact if_pos hle
                rw [step_store_of_le hx hp hle, hwrite, memory_bindResults]
                rfl
  | _ =>
      rw [memory_step_of_not_store (by intro opcode x p offset h; cases h)]
      rfl

end Step

@[simp] theorem memory_advance (func : Function) (p : Function.Point) (inst : Inst)
    (state : RunState) (r : StepResult) :
    (advance func p inst state r).state.memory = state.memory := by
  cases r with
  | error err => exact RunState.memory_logHalt state err inst
  | _ => rfl

/-- A move changes the memory by the write of the next instruction. -/
theorem bytes_next (func : Function) (config : Config) :
    ((machine func).next config).state.memory.bytes =
      replay config.state.memory.bytes (nextWrite func config).toList := by
  show (next func config).state.memory.bytes = _
  unfold next nextWrite
  cases config.status with
  | halted h => rfl
  | running p =>
      cases hinst : func.instAt p with
      | none => simp [hinst]
      | some inst =>
          simp only [hinst, Option.bind_some, memory_advance]
          exact bytes_step (func.data inst)

omit [RustCore] in
theorem memory_start (sim : Simulator) (func : Function) (args : List SimValue) :
    (sim.start func args).state.memory = sim.memory := by
  unfold Simulator.start
  cases func.layout.entryBlock <;> rfl

/-- After any number of instructions the memory is the initial one overwritten by the
log. -/
theorem bytes_configAfter (sim : Simulator) (func : Function) (args : List SimValue) (n : Nat) :
    (sim.configAfter func args n).state.memory.bytes =
      replay sim.memory.bytes (sim.storeLog func args n) := by
  induction n with
  | zero => exact congrArg Memory.bytes (memory_start sim func args)
  | succ n ih =>
      rw [Simulator.configAfter_succ, bytes_next, ih, Simulator.storeLog, replay_append]

theorem length_configAfter (sim : Simulator) (func : Function) (args : List SimValue) (n : Nat) :
    (sim.configAfter func args n).state.memory.length = sim.memory.length := by
  rw [Memory.length, bytes_configAfter, length_replay]
  rfl

/-- The byte at an address after a log: that of the latest write that covers it, or else
the initial one. -/
def byteAt (initial : Memory) (log : List (Write Byte)) (i : Nat) : Option Byte :=
  (initial.bytes[i]?).map fun b ↦ (latest log i).getD b

theorem getElem?_configAfter (sim : Simulator) (func : Function) (args : List SimValue)
    (n i : Nat) :
    (sim.configAfter func args n).state.memory.bytes[i]? =
      byteAt sim.memory (sim.storeLog func args n) i := by
  rw [bytes_configAfter, getElem?_replay]
  rfl

/-! ## Loads and stores of a run -/

/-- What a load of type `ty` into `r` at address `addr` does in a memory of length `L` that
holds `byte i` at `i`. -/
def LoadSpec (func : Function) (state : RunState) (inst : Inst) (data : InstructionData)
    (r : Value) (addr L : Nat) (byte : Nat → Option Byte) : Prop :=
  let ty := func.dfg.valueType r
  (addr + ty.bytes ≤ L → ∃ state' v bs, step func state inst data = (state', .continue_) ∧
      state'.registers r = some v ∧ v.ty = ty ∧ v.bits = ofLe bs ∧ bs.length = ty.bytes ∧
      ∀ j < ty.bytes, bs[j]? = byte (addr + j)) ∧
    (L < addr + ty.bytes →
      step func state inst data = (state, .error (.outOfBounds addr ty.bytes L)))

/-- What a store of `val` at address `addr` does in a memory of length `L`: the bytes written
are as many as the type has, and encode the bits of the value. -/
def StoreSpec (func : Function) (state : RunState) (inst : Inst) (data : InstructionData)
    (val : SimValue) (addr L : Nat) : Prop :=
  (addr + val.ty.bytes ≤ L → (step func state inst data).2 = .continue_ ∧
      writeOf state data = some ⟨addr, val.toBytes⟩ ∧ val.toBytes.length = val.ty.bytes ∧
      ofLe val.toBytes = val.bits) ∧
    (L < addr + val.ty.bytes → writeOf state data = none ∧
      step func state inst data = (state, .error (.outOfBounds addr val.ty.bytes L)))

section

variable {func : Function} {state : RunState} {inst : Inst} {opcode : Opcode}
  {offset : BitVec 32} {base : SimValue}

theorem loadSpec_step {arg r : Value} (harg : state.registers arg = some base)
    (hr : func.dfg.instResults inst = [r]) (hty : (func.dfg.valueType r).isSim)
    {byte : Nat → Option Byte} (hbyte : ∀ i, state.memory.bytes[i]? = byte i) :
    LoadSpec func state inst (.load opcode arg offset) r (accessAddr base offset)
      state.memory.length byte := by
  refine ⟨?_, step_load_of_lt harg hr⟩
  intro hle
  obtain ⟨v, hstep, hvty, hbits⟩ := step_load_of_le opcode harg hr hty hle
  refine ⟨_, v, _, hstep, ?_, hvty, hbits, Memory.length_read hle, ?_⟩
  · rw [registers_bindResults, hr, Env.insertAll_cons, Env.insertAll_nil, Env.insert_same]
  · intro j hj
    rw [Memory.getElem?_read _ hj, hbyte]

theorem storeSpec_step {x q : Value} {val : SimValue} (hx : state.registers x = some val)
    (hq : state.registers q = some base) :
    StoreSpec func state inst (.store opcode x q offset) val (accessAddr base offset)
      state.memory.length := by
  constructor
  · intro hle
    constructor
    · rw [step_store_of_le hx hq hle]
    · refine ⟨?_, val.length_toBytes, val.ofLe_toBytes⟩
      simp only [writeOf, hx, hq]
      exact if_pos hle
  · intro hlt
    refine ⟨?_, step_store_of_lt hx hq hlt⟩
    simp only [writeOf, hx, hq]
    exact if_neg (Nat.not_le_of_lt hlt)

end

/-- **Memory over a whole run.**  A run reports the memory after as many instructions as it
counts, which are no more than its budget.  After any number `n` of instructions the memory has
its initial length and holds, at each address, the byte of the latest successful store that
covers the address, or the initial byte.  The next instruction, if it is a load or a store of a
simulated type, succeeds exactly if its access ends within the memory, and fails with the
address, size and length otherwise, changing nothing; a store writes the little-endian bytes of
its value, and a load gives the little-endian value of the bytes it covers.  No other
instruction changes the memory. -/
theorem memory_semantics (sim : Simulator) (func : Function) (args : List SimValue) :
    (∃ exit, sim.exec func args = some exit ∧ sim.run func args = some exit.toResult ∧
      exit.steps ≤ sim.maxSteps ∧
      exit.toResult.memory = (sim.configAfter func args exit.steps).state.memory) ∧
    ∀ n,
      let state := (sim.configAfter func args n).state
      let byte := byteAt sim.memory (sim.storeLog func args n)
      state.memory.length = sim.memory.length ∧ (∀ i, state.memory.bytes[i]? = byte i) ∧
      ∀ p inst, (sim.configAfter func args n).status = .running p → func.instAt p = some inst →
        (∀ opcode arg offset base r, func.data inst = .load opcode arg offset →
          state.registers arg = some base → func.dfg.instResults inst = [r] →
          (func.dfg.valueType r).isSim →
          LoadSpec func state inst (func.data inst) r (accessAddr base offset) sim.memory.length
            byte) ∧
        (∀ opcode x q offset val base, func.data inst = .store opcode x q offset →
          state.registers x = some val → state.registers q = some base →
          StoreSpec func state inst (func.data inst) val (accessAddr base offset)
            sim.memory.length) ∧
        ((∀ opcode x q offset, func.data inst ≠ .store opcode x q offset) →
          (sim.configAfter func args (n + 1)).state.memory = state.memory) := by
  constructor
  · obtain ⟨exit, hexit⟩ := exists_exec sim func args
    obtain ⟨hsteps, -, hmemory⟩ := exec_state hexit
    exact ⟨exit, hexit, run_of_exec hexit, hsteps, hmemory⟩
  intro n state byte
  have hlen : state.memory.length = sim.memory.length := length_configAfter sim func args n
  have hbyte (i : Nat) : state.memory.bytes[i]? = byte i := getElem?_configAfter sim func args n i
  refine ⟨hlen, hbyte, ?_⟩
  intro p inst hp hinst
  refine ⟨?_, ?_, ?_⟩
  · intro opcode arg offset base r hdata harg hr hty
    rw [hdata, ← hlen]
    exact loadSpec_step harg hr hty hbyte
  · intro opcode x q offset val base hdata hx hq
    rw [hdata, ← hlen]
    exact storeSpec_step hx hq
  · intro hdata
    rw [Simulator.configAfter_succ, next_of_instAt hp hinst, memory_advance]
    exact memory_step_of_not_store hdata

end LowerIrUtils.Sim
