import LowerIrUtils.Sim.Fault

/-!
# Instructions the simulator does not support

`step` finds its arm by the format of an instruction.  Some arms look at the opcode as
well, those of the arithmetic leave it to `apply_binary` and `apply_unary`, and those of
loads, stores and calls do not look at it at all: an extending load is run as a load.
`apply_binary` in turn compares the types of its operands before it looks at the opcode.

`ChecksOpcode` is what is left: the instructions whose opcode decides.
-/

namespace LowerIrUtils.Sim

open Clif

/-! ## Formats and opcodes -/

/-- The opcodes of the formats that belong to one opcode alone or to a few. -/
def HasFormat : InstructionData → Prop
  | .intCompare opcode .. => opcode = .icmp
  | .floatCompare opcode .. => opcode = .fcmp
  | .jump opcode .. => opcode = .jump
  | .brif opcode .. => opcode = .brif
  | .load opcode .. =>
      opcode ∈ [Opcode.load, .uload8, .sload8, .uload16, .sload16, .uload32, .sload32]
  | .store opcode .. => opcode ∈ [Opcode.store, .istore8, .istore16, .istore32]
  | .call opcode .. => opcode ∈ [Opcode.call, .return_call]
  | _ => True

/-- Every operand of the instruction is bound to a value of its declared type. -/
def OperandsTyped (dfg : DataFlowGraph) (registers : Registers) (data : InstructionData) : Prop :=
  ∀ v ∈ data.operands, ∃ x, registers v = some x ∧ x.ty = dfg.valueType v

/-- The arm of the instruction gets to the opcode before it does anything else. -/
def ChecksOpcode (dfg : DataFlowGraph) : InstructionData → Prop
  | .load .. | .store .. | .call .. => False
  | .binary _ x y => dfg.valueType x = dfg.valueType y
  | _ => True

/-! ## What the arithmetic makes of an unsupported opcode -/

theorem applyInt_of_unsupported {op : Opcode} (h : op.isSupported = false) (x y : BitVec 64)
    (width : Nat) : applyInt op x y width = .error (.unsupportedOpcode op.name) := by
  cases op <;> first | rfl | cases h

theorem applyFloat_of_unsupported [Ieee754.NanBits] {op : Opcode} (h : op.isSupported = false)
    (x y : Ieee754.F64) : applyFloat op x y = .error (.unsupportedOpcode op.name) := by
  cases op <;> first | rfl | cases h

/-- On operands of one type the opcode is looked at. -/
theorem applyBinary_of_unsupported [Ieee754.NanBits] {op : Opcode} (h : op.isSupported = false)
    {a b : SimValue} (hty : a.ty = b.ty) :
    applyBinary op a b = .error (.unsupportedOpcode op.name) := by
  have hint := applyInt_of_unsupported h
  have hfloat := applyFloat_of_unsupported h
  cases a <;> cases b <;>
    first | (simp only [applyBinary, hint, hfloat, Except.map]; done) | cases hty

/-- On operands of two types it is not. -/
theorem applyBinary_of_ty_ne [Ieee754.NanBits] {op : Opcode} {a b : SimValue} (hty : a.ty ≠ b.ty) :
    applyBinary op a b = .error (.typeMismatch s!"{op.name}: operand types differ") := by
  cases a <;> cases b <;> first | exact absurd rfl hty | rfl

theorem applyUnary_of_unsupported {op : Opcode} (h : op.isSupported = false) (a : SimValue)
    (ty : Ty) : applyUnary op a ty = .error (.unsupportedOpcode op.name) := by
  cases op <;> first | rfl | cases h

section

variable [RustCore] {func : Function} {state : RunState} {inst : Inst}

/-- The instruction halts the run with an error that names its opcode, and changes nothing. -/
def HaltsUnsupported (func : Function) (state : RunState) (inst : Inst)
    (data : InstructionData) : Prop :=
  ∃ state', step func state inst data =
      (state', .error (.unsupportedOpcode data.opcode.name)) ∧
    state'.registers = state.registers ∧ state'.memory = state.memory

theorem haltsUnsupported_of_compute {data : InstructionData}
    (hstep : step func state inst data = computeStep func state inst data)
    (h : compute func state inst data = .error (.unsupportedOpcode data.opcode.name)) :
    HaltsUnsupported func state inst data := by
  refine ⟨state, ?_, rfl, rfl⟩
  rw [hstep, computeStep, h]

/-- No load, store or call names an unsupported opcode. -/
theorem not_haltsUnsupported_load {opcode : Opcode} {arg : Value} {offset : BitVec 32}
    (h : (state.registers arg).isSome) :
    ¬ HaltsUnsupported func state inst (.load opcode arg offset) := by
  rintro ⟨state', hstep, -⟩
  obtain ⟨x, hx⟩ := Option.isSome_iff_exists.mp h
  have hstep' : computeStep func state inst (.load opcode arg offset) = (state', .error _) := hstep
  unfold computeStep at hstep'
  rw [compute_load hx] at hstep'
  split at hstep'
  · rename_i e he
    cases hstep'
    rcases loadFrom_error he with h | h <;> cases h
  · cases hstep'

theorem not_haltsUnsupported_store {opcode : Opcode} {x p : Value} {offset : BitVec 32}
    (hx : (state.registers x).isSome) (hp : (state.registers p).isSome) :
    ¬ HaltsUnsupported func state inst (.store opcode x p offset) := by
  rintro ⟨state', hstep, -⟩
  obtain ⟨val, hval⟩ := Option.isSome_iff_exists.mp hx
  obtain ⟨base, hbase⟩ := Option.isSome_iff_exists.mp hp
  obtain ⟨r, hr, hcases⟩ := storeStep_of_bound func inst opcode offset hval hbase
  have hresult : StepResult.error _ = r := (congrArg Prod.snd hstep).symm.trans hr
  subst hresult
  rcases hcases with h | ⟨_, _, _, h⟩ <;> cases h

theorem not_haltsUnsupported_call {opcode : Opcode} {args : List Value} {funcRef : FuncRef}
    (h : ∀ a ∈ args, (state.registers a).isSome) :
    ¬ HaltsUnsupported func state inst (.call opcode args funcRef) := by
  rintro ⟨state', hstep, -⟩
  obtain ⟨vals, hvals⟩ := RunState.exists_getAll_iff.mpr h
  obtain ⟨line, hline⟩ := callStep_of_ok func inst funcRef hvals
  have hstep' : callStep func state inst funcRef args = (state', .error _) := hstep
  rw [hline] at hstep'
  unfold fillResults at hstep'
  split at hstep'
  · cases hstep'
  · rename_i regs e hz
    cases hstep'
    obtain ⟨v, -, -, he⟩ := bindZeros_error hz
    cases he

/-- Operands of two types are reported as such, whatever the opcode. -/
theorem not_haltsUnsupported_binary {opcode : Opcode} {x y : Value} {a b : SimValue}
    (hx : state.registers x = some a) (hy : state.registers y = some b) (hty : a.ty ≠ b.ty) :
    ¬ HaltsUnsupported func state inst (.binary opcode x y) := by
  rintro ⟨state', hstep, -⟩
  have hstep' : computeStep func state inst (.binary opcode x y) = (state', .error _) := hstep
  rw [computeStep, compute_binary hx hy, applyBinary_of_ty_ne hty] at hstep'
  cases hstep'

/-- Outside those arms the opcode decides. -/
theorem haltsUnsupported_of_checksOpcode {data : InstructionData}
    (hop : data.opcode.isSupported = false) (hformat : HasFormat data)
    (htyped : OperandsTyped func.dfg state.registers data)
    (hcheck : ChecksOpcode func.dfg data) : HaltsUnsupported func state inst data := by
  cases data with
  | load => exact hcheck.elim
  | store => exact hcheck.elim
  | call => exact hcheck.elim
  | jump opcode dest => rw [show opcode = _ from hformat] at hop; cases hop
  | brif opcode arg thenDest elseDest => rw [show opcode = _ from hformat] at hop; cases hop
  | intCompare opcode cond x y => rw [show opcode = _ from hformat] at hop; cases hop
  | floatCompare opcode cond x y => rw [show opcode = _ from hformat] at hop; cases hop
  | binary opcode x y =>
      obtain ⟨a, hx, hxty⟩ := htyped x (by simp [InstructionData.operands])
      obtain ⟨b, hy, hyty⟩ := htyped y (by simp [InstructionData.operands])
      refine haltsUnsupported_of_compute rfl ?_
      rw [compute_binary hx hy]
      refine applyBinary_of_unsupported hop ?_
      rw [hxty, hyty]
      exact hcheck
  | unary opcode arg =>
      obtain ⟨a, ha, -⟩ := htyped arg (by simp [InstructionData.operands])
      refine haltsUnsupported_of_compute rfl ?_
      rw [compute_unary ha]
      exact applyUnary_of_unsupported hop a _
  | multiAry opcode args =>
      cases opcode
      case return_ => cases hop
      all_goals exact haltsUnsupported_of_compute rfl rfl
  | unaryImm opcode imm =>
      cases opcode <;> first | exact haltsUnsupported_of_compute rfl rfl | cases hop
  | unaryIeee32 opcode imm =>
      cases opcode <;> first | exact haltsUnsupported_of_compute rfl rfl | cases hop
  | unaryIeee64 opcode imm =>
      cases opcode <;> first | exact haltsUnsupported_of_compute rfl rfl | cases hop
  | loadNoOffset opcode arg =>
      cases opcode <;> first | exact haltsUnsupported_of_compute rfl rfl | cases hop
  | ternary opcode c x y =>
      cases opcode <;> first | exact haltsUnsupported_of_compute rfl rfl | cases hop
  | other opcode args => exact haltsUnsupported_of_compute rfl rfl

/-- **An unsupported instruction halts the run exactly if its arm checks the opcode.**  For
an instruction whose opcode is not supported and whose operands are bound and well
typed, `step` names the opcode in an `UnsupportedOpcode` error and leaves registers and
memory alone if and only if the instruction is no load, store or call and, as a binary
one, has operands of one type. -/
theorem haltsUnsupported_iff {data : InstructionData} (hop : data.opcode.isSupported = false)
    (hformat : HasFormat data) (htyped : OperandsTyped func.dfg state.registers data) :
    HaltsUnsupported func state inst data ↔ ChecksOpcode func.dfg data := by
  refine ⟨?_, haltsUnsupported_of_checksOpcode hop hformat htyped⟩
  intro hhalts
  have hbound : ∀ v ∈ data.operands, (state.registers v).isSome := by
    intro v hv
    obtain ⟨x, hx, -⟩ := htyped v hv
    rw [hx]
    rfl
  cases data with
  | load opcode arg offset =>
      exact not_haltsUnsupported_load (hbound arg (by simp [InstructionData.operands])) hhalts
  | store opcode x p offset =>
      exact not_haltsUnsupported_store (hbound x (by simp [InstructionData.operands]))
        (hbound p (by simp [InstructionData.operands])) hhalts
  | call opcode args funcRef => exact not_haltsUnsupported_call hbound hhalts
  | binary opcode x y =>
      obtain ⟨a, hx, hxty⟩ := htyped x (by simp [InstructionData.operands])
      obtain ⟨b, hy, hyty⟩ := htyped y (by simp [InstructionData.operands])
      show func.dfg.valueType x = func.dfg.valueType y
      by_contra hne
      refine not_haltsUnsupported_binary hx hy ?_ hhalts
      rwa [hxty, hyty]
  | _ => trivial

end

/-! ## An extending load -/

section

local instance unsupportedFmt : RustCore := .blank

/-- `v1 = uload8.i64 v0`. -/
def extendingLoad : Function :=
  .ofTables ⟨[.I64], [.I64]⟩
    [(.load .uload8 ⟨0⟩ 0, [⟨1⟩]), (.multiAry .return_ [⟨1⟩], [])] [([⟨0⟩], [⟨0⟩, ⟨1⟩])]
    [.I64, .I64] [] []

/-- Eight bytes of memory, with `v0` bound to their address. -/
def eightBytes : RunState :=
  ⟨⟨[1, 2, 0, 0, 0, 0, 0, 0], by decide⟩, Env.empty.insert ⟨0⟩ (.I64 0), [], false⟩

theorem eightBytes_typed {data : InstructionData} (h : ∀ v ∈ data.operands, v = ⟨0⟩) :
    OperandsTyped extendingLoad.dfg eightBytes.registers data := by
  intro v hv
  obtain rfl := h v hv
  exact ⟨.I64 0, rfl, rfl⟩

/-- `rotl v0, v0`, which the simulator does not support, halts the run. -/
theorem haltsUnsupported_rotl :
    HaltsUnsupported extendingLoad eightBytes ⟨0⟩ (.binary (.other "rotl") ⟨0⟩ ⟨0⟩) :=
  Iff.mpr (haltsUnsupported_iff rfl trivial
    (eightBytes_typed (by simp [InstructionData.operands]))) rfl

/-- The extending load of one byte is carried out as a load of eight. -/
theorem extendingLoad_runs_load :
    ¬ ∀ (func : Function) (state : RunState) (inst : Inst) (data : InstructionData),
      data.opcode.isSupported = false → HasFormat data →
      OperandsTyped func.dfg state.registers data → HaltsUnsupported func state inst data := by
  intro h
  obtain ⟨state', hstep, hregisters, -⟩ := h extendingLoad eightBytes ⟨0⟩ (.load .uload8 ⟨0⟩ 0)
    rfl (by simp [HasFormat]) (eightBytes_typed (by simp [InstructionData.operands]))
  have hloaded : (step extendingLoad eightBytes ⟨0⟩ (.load .uload8 ⟨0⟩ 0)).1.registers ⟨1⟩ =
      some (.I64 513) := rfl
  rw [hstep, hregisters] at hloaded
  cases hloaded

end

end LowerIrUtils.Sim
