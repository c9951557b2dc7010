import LowerIrUtils.Clif.StraightLine
import LowerIrUtils.Machine.Forward
import LowerIrUtils.Sim.Accesses
import LowerIrUtils.Sim.ReferenceOps
import LowerIrUtils.Sim.Refinement

/-!
# The simulator implements the reference semantics

On every verified function whose addresses are pointers, the simulator follows the reference
semantics of the full instruction set, with a host that returns zeros: it returns the same
values, stops at the same access out of bounds, and leaves the same memory, after the same
number of instructions.  The exceptions are a division that traps and a float operation that
gives a NaN, where the simulator goes on with a value of its own; so the law is one of
forward simulation (`run_implements`).
-/

namespace LowerIrUtils.Clif

/-- Every address is a pointer of a 64-bit target. -/
def UsesPointers (func : Function) : Prop :=
  ∀ b ∈ func.layout.blocks, ∀ inst ∈ func.layout.blockInsts b,
    ∀ v ∈ (func.data inst).addresses, func.dfg.valueType v = .I64

end LowerIrUtils.Clif

namespace LowerIrUtils.Sim

open Clif Reference

/-- A configuration of the reference machine, as the simulator represents it. -/
inductive Represents : Full.Config → Config → Prop
  | running {p : Function.Point} {state : RunState} {env : BitEnv} {mem : Mem}
      (henv : env = bitEnv state.registers) (hmem : mem = state.memory.toMem) :
      Represents (.running p env mem) ⟨.running p, state⟩
  | returned {vals : List SimValue} {state : RunState} {mem : Mem}
      (hmem : mem = state.memory.toMem) :
      Represents (.ended (.returned (vals.map SimValue.toBits)) mem)
        ⟨.halted (.ended vals none), state⟩
  | outOfBounds {addr size : Nat} {state : RunState} {mem : Mem}
      (hmem : mem = state.memory.toMem) :
      Represents (.ended (.outOfBounds addr size) mem)
        ⟨.halted (.ended [] (some (.outOfBounds addr size state.memory.length))), state⟩

/-- The result leaves open what comes after it: a trap, or a NaN whose bits are any. -/
def LeftOpen (r : Result × Mem) : Prop := r.1 = .trapped ∨ r.1 = .nan

/-- The simulator is where the reference machine is, unless that leaves open where to be. -/
def Follows (func : Function) (c : Full.Config) (config : Config) : Prop :=
  Represents c config ∨ ∃ r, (Full.machine func .stub).done c = some r ∧ LeftOpen r

section

variable [RustCore] {func : Function} {state : RunState} {p : Function.Point} {inst : Inst}
  {data : InstructionData}

/-! ## Instructions -/

omit [RustCore] in
/-- An integer instruction leaves the memory as it is. -/
theorem represents_of_agree {config : Config} {c : Reference.Config} (h : Agree config c)
    (hmem : config.state.memory = state.memory) :
    Represents (.ofInteger state.memory.toMem c) config := by
  cases h with
  | running henv => exact .running henv (congrArg Memory.toMem hmem.symm)
  | returned => exact .returned (congrArg Memory.toMem hmem.symm)

/-- An instruction whose value is the one of the reference semantics. -/
theorem represents_of_compute {ty : Ty}
    (hresults : (func.dfg.instResults inst).map func.dfg.valueType = [ty])
    (hstep : step func state inst data = computeStep func state inst data) {v : SimValue}
    (hcompute : compute func state inst data = .ok v) {value : Ty → Option BitVal}
    (hvalue : value ty = some v.toBits) :
    Represents (Full.assign func p (bitEnv state.registers) state.memory.toMem inst value)
      (advance func p inst (step func state inst data).1 (step func state inst data).2) := by
  obtain ⟨r, hr, hty⟩ := exists_result hresults
  rw [hstep, computeStep, hcompute, Full.assign, hr]
  simp only [hty, hvalue]
  refine .running ?_ ?_
  · rw [registers_bindResults, bitEnv_insertAll, hr]
    rfl
  · rw [memory_bindResults]

/-- A division follows the reference semantics as far as that goes. -/
theorem follows_divide {opcode : Opcode} {x y : Value} {a b : SimValue} {ty : Ty}
    (hresults : (func.dfg.instResults inst).map func.dfg.valueType = [ty])
    (hop : opcode.isDivision) (hty : ty.isSimInt) (ha : state.registers x = some a)
    (hb : state.registers y = some b) (hxa : a.ty = ty) (hyb : b.ty = ty) :
    Follows func
      (Full.divide func p (bitEnv state.registers) state.memory.toMem inst opcode x y)
      (advance func p inst (step func state inst (.binary opcode x y)).1
        (step func state inst (.binary opcode x y)).2) := by
  subst hxa
  obtain ⟨i, j, hi, hj⟩ := SimValue.exists_toBits_eq hyb
  unfold Full.divide
  rw [bitEnv_eq_some ha, bitEnv_eq_some hb, hi, hj]
  simp only [BitVal.bitsAt_mk]
  cases hq : quotient opcode i j with
  | none => exact .inr ⟨_, rfl, .inl rfl⟩
  | some q =>
      obtain ⟨v, hv, hbits⟩ := applyBinary_of_quotient hop hty hi hj hq
      refine .inl (represents_of_compute (v := v) hresults rfl ?_ ?_)
      · rw [compute_binary ha hb]
        exact hv
      · rw [hbits]

/-- Float arithmetic follows the reference semantics as long as it gives numbers. -/
theorem follows_floatArith {opcode : Opcode} {x y : Value} {a b : SimValue} {ty : Ty}
    (hresults : (func.dfg.instResults inst).map func.dfg.valueType = [ty])
    (hop : opcode.isFloatBinary) (ha : state.registers x = some a)
    (hb : state.registers y = some b) (hab : b.ty = a.ty) (hty : a.ty.isSimFloat) :
    Follows func
      (Full.floatArith func p (bitEnv state.registers) state.memory.toMem inst opcode x y)
      (advance func p inst (step func state inst (.binary opcode x y)).1
        (step func state inst (.binary opcode x y)).2) := by
  obtain ⟨v, z, hv, hz, hexact⟩ := applyBinary_float_toBits hop hab hty
  unfold Full.floatArith
  rw [bitEnv_eq_some ha, bitEnv_eq_some hb]
  simp only [hz]
  by_cases hnan : z.datum = .nan
  · rw [if_pos hnan]
    exact .inr ⟨_, rfl, .inr rfl⟩
  · rw [if_neg hnan]
    refine .inl (represents_of_compute (v := v) hresults rfl ?_ ?_)
    · rw [compute_binary ha hb]
      exact hv
    · rw [hexact hnan]

/-- An access out of bounds leaves the memory as it is. -/
theorem represents_outOfBounds (addr size : Nat) :
    Represents (.ended (.outOfBounds addr size) state.memory.toMem)
      (advance func p inst state (.error (.outOfBounds addr size state.memory.length))) := by
  have hmemory := RunState.memory_logHalt state (.outOfBounds addr size state.memory.length) inst
  have h := @Represents.outOfBounds addr size
    (state.logHalt (.outOfBounds addr size state.memory.length) inst) _ rfl
  rwa [hmemory] at h

theorem represents_load {x : Value} {offset : BitVec 32} {base : SimValue} {ty : Ty}
    (hresults : (func.dfg.instResults inst).map func.dfg.valueType = [ty]) (hty : ty.isSim)
    (hx : state.registers x = some base) (hbase : base.ty = .I64) :
    Represents (Full.load func p (bitEnv state.registers) state.memory.toMem inst x offset)
      (advance func p inst (step func state inst (.load .load x offset)).1
        (step func state inst (.load .load x offset)).2) := by
  obtain ⟨r, hr, rfl⟩ := exists_result hresults
  have haddr : ((bitEnv state.registers) x).bind (·.address offset) =
      some (accessAddr base offset) := by
    rw [bitEnv_eq_some hx]
    exact address_toBits hbase offset
  unfold Full.load
  rw [haddr, hr]
  rcases Nat.lt_or_ge state.memory.length
    (accessAddr base offset + (func.dfg.valueType r).bytes) with hlt | hle
  · simp only [Memory.load_of_lt (bytes_pos hty) hlt]
    rw [step_load_of_lt hx hr hlt]
    exact represents_outOfBounds _ _
  · simp only [Memory.load_of_le hle]
    have hle' := hle
    rw [← toNat_effectiveAddr] at hle'
    obtain ⟨v, hv, hvty, -⟩ := loadFrom_of_le hty hle'
    have hbytes : v.toBits = .ofBytes (func.dfg.valueType r)
        (state.memory.read (accessAddr base offset) (func.dfg.valueType r).bytes) := by
      have hend := Memory.endOf_eq_some_iff.mpr ⟨rfl, hle'⟩
      simp only [loadFrom, hend] at hv
      split at hv
      · rename_i u hu
        cases hv
        rw [toNat_effectiveAddr] at hu
        exact toBits_ofBytes hu (Memory.length_read hle)
      · cases hv
    have hcompute : compute func state inst (.load .load x offset) = .ok v := by
      rw [compute_load_of_result hx hr, hv]
    have hassign : Represents (Full.assign func p (bitEnv state.registers) state.memory.toMem inst
        fun _ ↦ some v.toBits) _ :=
      represents_of_compute hresults rfl hcompute rfl
    rw [Full.assign, hr, hbytes] at hassign
    exact hassign

theorem represents_store {x pointer : Value} {offset : BitVec 32} {val base : SimValue}
    (hresults : func.dfg.instResults inst = []) (hx : state.registers x = some val)
    (hp : state.registers pointer = some base) (hbase : base.ty = .I64) :
    Represents (Full.store p (bitEnv state.registers) state.memory.toMem x pointer offset)
      (advance func p inst (step func state inst (.store .store x pointer offset)).1
        (step func state inst (.store .store x pointer offset)).2) := by
  have haddr : ((bitEnv state.registers) pointer).bind (·.address offset) =
      some (accessAddr base offset) := by
    rw [bitEnv_eq_some hp]
    exact address_toBits hbase offset
  unfold Full.store
  rw [bitEnv_eq_some hx, haddr]
  simp only [SimValue.ty_toBits]
  have hsim : val.ty.isSim := by
    cases val <;> rfl
  rcases Nat.lt_or_ge state.memory.length (accessAddr base offset + val.ty.bytes) with hlt | hle
  · simp only [Memory.load_of_lt (bytes_pos hsim) hlt]
    rw [step_store_of_lt hx hp hlt]
    exact represents_outOfBounds _ _
  · simp only [Memory.load_of_le hle]
    rw [step_store_of_le hx hp hle]
    refine .running ?_ ?_
    · rw [registers_bindResults, hresults]
      rfl
    · rw [memory_bindResults, toBytes_toBits]
      exact (Memory.toMem_write (by rwa [SimValue.length_toBytes])).symm

theorem represents_call {args : List Value} {funcRef : FuncRef} {vals : List SimValue}
    (hvals : state.registers.lookupAll args = .ok vals)
    (hreturns : (func.dfg.instResults inst).map func.dfg.valueType =
      (func.dfg.extFuncs funcRef).signature.returns)
    (htys : ∀ v ∈ func.dfg.instResults inst, (func.dfg.valueType v).isSim) :
    Represents
      (Full.call func p (bitEnv state.registers) state.memory.toMem inst .stub args funcRef)
      (advance func p inst (step func state inst (.call .call args funcRef)).1
        (step func state inst (.call .call args funcRef)).2) := by
  obtain ⟨line, hcall⟩ := callStep_of_ok func inst funcRef (RunState.getAll_eq_ok_iff.mpr hvals)
  have hstep : step func state inst (.call .call args funcRef) =
      callStep func state inst funcRef args := rfl
  obtain ⟨zeros, hzeros, hzty⟩ := bindZeros_toBits (func.dfg.instResults inst) state.registers htys
  unfold Full.call
  rw [lookupAll_bitEnv hvals, hstep, hcall, fillResults_eq, RunState.registers_log, hzeros]
  refine .running ?_ ?_
  · rw [bitEnv_insertAll, hzty, ← hreturns, List.map_map]
    rfl
  · exact congrArg Memory.toMem (RunState.memory_log state line).symm

omit [RustCore] in
theorem ne_store_of_isReference {tys : List Ty} (h : InstTyping func data tys)
    (href : data.opcode.isReference) (opcode : Opcode) (x p : Value) (offset : BitVec 32) :
    data ≠ .store opcode x p offset := by
  rintro rfl
  cases h
  cases href

/-- **One instruction.**  The simulator follows the reference machine. -/
theorem follows_step
    (h : InstTyping func data ((func.dfg.instResults inst).map func.dfg.valueType))
    (hptr : ∀ v ∈ data.addresses, func.dfg.valueType v = .I64)
    (htyped : RegistersTyped func state.registers) (hbound : Bound state.registers data.operands) :
    Follows func (Full.exec func p (bitEnv state.registers) state.memory.toMem inst .stub data)
      (advance func p inst (step func state inst data).1 (step func state inst data).2) := by
  unfold Full.exec
  by_cases href : data.opcode.isReference
  · rw [if_pos href]
    refine .inl (represents_of_agree (agree_step h href htyped hbound) ?_)
    rw [memory_advance, memory_step_of_not_store (ne_store_of_isReference h href)]
  · rw [if_neg href]
    have hvalue (v : Value) (hv : v ∈ data.operands) := htyped.exists_value (hbound v hv)
    generalize hresults : (func.dfg.instResults inst).map func.dfg.valueType = tys at h
    cases h with
    | @f32const imm => exact .inl (represents_of_compute (v := .F32 imm) hresults rfl rfl rfl)
    | @f64const imm => exact .inl (represents_of_compute (v := .F64 imm) hresults rfl rfl rfl)
    | @intBinary opcode x y ty hop hx hy hty =>
        obtain ⟨a, ha, hxa⟩ := hvalue x (by simp [InstructionData.operands])
        obtain ⟨b, hb, hyb⟩ := hvalue y (by simp [InstructionData.operands])
        have hdiv := isDivision_of_isIntBinary hop (Bool.eq_false_iff.mpr href)
        simp only [if_pos hop]
        exact follows_divide hresults hdiv hty ha hb (hxa.trans hx) (hyb.trans hy)
    | @floatBinary opcode x y ty hop hx hy hty =>
        obtain ⟨a, ha, hxa⟩ := hvalue x (by simp [InstructionData.operands])
        obtain ⟨b, hb, hyb⟩ := hvalue y (by simp [InstructionData.operands])
        have hint : ¬ opcode.isIntBinary := by
          cases opcode <;> first | exact Bool.false_ne_true | cases hop
        have hab : b.ty = a.ty := by rw [hyb, hxa, hx, hy]
        simp only [if_neg hint]
        exact follows_floatArith hresults hop ha hb hab (by rw [hxa, hx]; exact hty)
    | @fneg x ty hx hty =>
        obtain ⟨a, ha, hxa⟩ := hvalue x (by simp [InstructionData.operands])
        obtain ⟨v, hv, hbits⟩ := applyUnary_fneg_toBits (a := a) (by rw [hxa, hx]; exact hty) ty
        refine .inl (represents_of_compute (v := v) hresults rfl ?_ ?_)
        · rw [compute_unary_of_result hresults ha]
          exact hv
        · rw [Full.eval, bitEnv_eq_some ha]
          exact hbits
    | @bitcast x ty hx hty hbits =>
        obtain ⟨a, ha, hxa⟩ := hvalue x (by simp [InstructionData.operands])
        obtain ⟨v, hv, hbits⟩ := applyUnary_bitcast_toBits (a := a) hty (by rw [hxa]; exact hbits)
        refine .inl (represents_of_compute (v := v) hresults rfl ?_ ?_)
        · rw [compute_bitcast ha, resultTy_eq hresults]
          exact hv
        · rw [Full.eval, bitEnv_eq_some ha]
          exact hbits
    | @fcmp cond x y ty hx hy hty =>
        obtain ⟨a, ha, hxa⟩ := hvalue x (by simp [InstructionData.operands])
        obtain ⟨b, hb, hyb⟩ := hvalue y (by simp [InstructionData.operands])
        refine .inl (represents_of_compute (v := ofBool (fcmp cond a b)) hresults rfl ?_ ?_)
        · exact compute_floatCompare ha hb
        · rw [Full.eval, bitEnv_eq_some ha, bitEnv_eq_some hb]
          exact floatCompare_toBits cond (by rw [hxa, hx]; exact hty) (by rw [hyb, hxa, hx, hy])
    | @load x offset ty hx hty =>
        obtain ⟨base, hbase, hbasety⟩ := hvalue x (by simp [InstructionData.operands])
        exact .inl (represents_load hresults hty hbase
          (hbasety.trans (hptr x List.mem_cons_self)))
    | @store x pointer offset hx hp =>
        obtain ⟨val, hval, -⟩ := hvalue x (by simp [InstructionData.operands])
        obtain ⟨base, hbase, hbasety⟩ := hvalue pointer (by simp [InstructionData.operands])
        exact .inl (represents_store (List.map_eq_nil_iff.mp hresults) hval hbase
          (hbasety.trans (hptr pointer List.mem_cons_self)))
    | @call args funcRef _ hargs hreturns htys =>
        have hboundArgs : Bound state.registers args := hbound
        obtain ⟨vals, hvals, -⟩ := htyped.exists_lookupAll hboundArgs
        exact .inl (represents_call hvals (hresults.trans hreturns)
          fun v hv ↦ htys _ (hresults ▸ List.mem_map_of_mem hv))
    | _ => exact absurd rfl href

/-! ## Runs -/

variable {entry : Block}

/-- The simulator implements the reference machine as far as that says what to do. -/
theorem forward (hv : Verified func entry) (hptr : UsesPointers func) :
    Forward (Full.machine func .stub) (machine func)
      (fun c config ↦ Represents c config ∧ Sound func entry config) (fun _ _ ↦ True)
      LeftOpen where
  done := by
    rintro c config r ⟨hrep, -⟩ hr
    cases hrep with
    | running henv hmem => cases hr
    | returned hmem => exact ⟨_, rfl, trivial⟩
    | outOfBounds hmem => exact ⟨_, rfl, trivial⟩
  running := by
    rintro c config ⟨hrep, hsound⟩ hr
    cases hrep with
    | running henv hmem =>
        obtain ⟨inst, hinst⟩ := hsound.status.inst
        exact done_eq_none_iff.mpr ⟨_, inst, rfl, hinst⟩
    | returned hmem => cases hr
    | outOfBounds hmem => cases hr
  next := by
    rintro c config ⟨hrep, hsound⟩ hr
    cases hrep with
    | @running p state env mem henv hmem =>
        have hat : SoundAt func entry state.registers p := hsound.status
        obtain ⟨inst, hinst⟩ := hat.inst
        have hnext : (Full.machine func .stub).next (.running p env mem) =
            Full.exec func p env mem inst .stub (func.data inst) := by
          simp only [Full.machine, hinst]
        have hfollows := follows_step (p := p) (hv.typed_instAt hat.block hinst)
          (hptr p.block hat.block inst (List.mem_of_getElem? hinst)) hsound.typed
          (hat.bound_operands hv hinst)
        have hsound' := sound_next hv hsound
        rw [next_of_instAt rfl hinst] at hsound' ⊢
        rw [hnext, henv, hmem]
        exact hfollows.imp_left fun h ↦ ⟨h, hsound'⟩
    | returned hmem => cases hr
    | outOfBounds hmem => cases hr

omit [RustCore] in
theorem represents_start (sim : Simulator) (hv : Verified func entry) (args : List SimValue) :
    Represents (Full.start func sim.memory.toMem (args.map SimValue.toBits))
      (sim.start func args) := by
  rw [Simulator.start, Full.start, hv.isEntry]
  refine .running ?_ rfl
  show _ = bitEnv (Env.insertAll _ args .empty)
  rw [bitEnv_insertAll]
  rfl

/-- What a run reports for a result of the reference machine within its budget. -/
inductive Reports (limit : Nat) (r : SimResult) : Option (Result × Mem) → Prop
  | returned {vals : List BitVal} (herror : r.error = none)
      (hvals : r.returns.map SimValue.toBits = vals) :
      Reports limit r (some (.returned vals, r.memory.toMem))
  | outOfBounds {addr size : Nat} (hreturns : r.returns = [])
      (herror : r.error = some (.outOfBounds addr size r.memory.length)) :
      Reports limit r (some (.outOfBounds addr size, r.memory.toMem))
  | trapped {mem : Mem} : Reports limit r (some (.trapped, mem))
  | nan {mem : Mem} : Reports limit r (some (.nan, mem))
  | stepLimitExceeded (hreturns : r.returns = [])
      (herror : r.error = some (.stepLimitExceeded limit)) : Reports limit r none

omit [RustCore] in
theorem Reports.of_returned {limit : Nat} {r : SimResult} {vals : List BitVal} {mem : Mem}
    (h : Reports limit r (some (.returned vals, mem))) :
    r.error = none ∧ r.returns.map SimValue.toBits = vals ∧ mem = r.memory.toMem := by
  cases h with
  | returned herror hvals => exact ⟨herror, hvals, rfl⟩

/-- What a run reports where the reference machine has a result within its budget. -/
theorem reports_of_haltsAt (sim : Simulator) (hv : Verified func entry) (hptr : UsesPointers func)
    {args : List SimValue} (hargs : args.map SimValue.ty = func.signature.params) {k : Nat}
    {r : Result × Mem} (hr : (Full.machine func .stub).HaltsAt
      (Full.start func sim.memory.toMem (args.map SimValue.toBits)) k r) (hk : k ≤ sim.maxSteps) :
    ∃ result, sim.run func args = some result ∧ Reports sim.maxSteps result (some r) := by
  have hstart := And.intro (represents_start sim hv args) (sound_start sim hv hargs)
  rcases (forward hv hptr).haltsAt hstart hr with hbad | ⟨halt, hhalt, -, hrep, -⟩
  · obtain ⟨exit, hexit⟩ := exists_exec sim func args
    refine ⟨_, run_of_exec hexit, ?_⟩
    obtain ⟨result, mem⟩ := r
    rcases hbad with rfl | rfl
    · exact .trapped
    · exact .nan
  · have hdone := hr.2
    have hdone' : done func (sim.configAfter func args k) = some halt := hhalt.2
    change Represents _ (sim.configAfter func args k) at hrep
    generalize hconfig : sim.configAfter func args k = config at hrep hdone'
    generalize (Full.machine func .stub).after k _ = c at hrep hdone
    cases hrep with
    | running henv hmem => cases hdone
    | @returned vals state mem hmem =>
        cases hdone
        cases hdone'
        refine ⟨_, run_of_exec (exec_of_haltsAt hhalt hk), ?_⟩
        rw [hconfig, hmem]
        exact .returned rfl rfl
    | @outOfBounds addr size state mem hmem =>
        cases hdone
        cases hdone'
        refine ⟨_, run_of_exec (exec_of_haltsAt hhalt hk), ?_⟩
        rw [hconfig, hmem]
        exact .outOfBounds rfl rfl

end

/-! ## A value kept in memory -/

/-- Half of a value that has been in memory:
```
block0(v0: i64):
  v1 = iconst.i32 84;  store v1, v0+4;  v2 = load.i32 v0+4;  v3 = iconst.i32 2
  v4 = udiv v2, v3;    return v4
``` -/
def kept : Function :=
  .ofTables ⟨[.I64], [.I32]⟩
    [(.unaryImm .iconst 84, [⟨1⟩]), (.store .store ⟨1⟩ ⟨0⟩ 4, []), (.load .load ⟨0⟩ 4, [⟨2⟩]),
      (.unaryImm .iconst 2, [⟨3⟩]), (.binary .udiv ⟨2⟩ ⟨3⟩, [⟨4⟩]),
      (.multiAry .return_ [⟨4⟩], [])]
    [([⟨0⟩], [⟨0⟩, ⟨1⟩, ⟨2⟩, ⟨3⟩, ⟨4⟩, ⟨5⟩])] [.I64, .I32, .I32, .I32, .I32] [] []

namespace Kept

theorem straightLine : StraightLine kept ⟨0⟩ where
  blocks := rfl
  outside := by
    rintro ⟨_ | i⟩ hb
    · exact absurd rfl hb
    · rfl
  destinations := by decide

theorem verified : Verified kept ⟨0⟩ := by
  have hinsts : kept.layout.blockInsts ⟨0⟩ = [⟨0⟩, ⟨1⟩, ⟨2⟩, ⟨3⟩, ⟨4⟩] ++ [⟨5⟩] := rfl
  refine (straightLine.verified_iff hinsts (by decide) rfl rfl).mpr ?_
  have hparam (i : Nat) : InScope kept ⟨0⟩ i ⟨0⟩ := .inl List.mem_cons_self
  have hresult {i : Nat} (j : Nat) {v : Value} (hj : j < i) (hv : v ∈ kept.resultsAt ⟨⟨0⟩, j⟩) :
      InScope kept ⟨0⟩ i v := .inr ⟨j, hj, hv⟩
  have hone {i : Nat} {v : Value} (hv : InScope kept ⟨0⟩ i v) :
      ∀ u ∈ [v], InScope kept ⟨0⟩ i u := List.forall_mem_singleton.mpr hv
  intro i inst hi
  match i, hi with
  | 0, rfl => exact ⟨.iconst rfl, nofun⟩
  | 1, rfl =>
      refine ⟨.store rfl rfl, List.forall_mem_cons.mpr ⟨?_, hone (hparam 1)⟩⟩
      exact hresult 0 (by decide) List.mem_cons_self
  | 2, rfl => exact ⟨.load rfl rfl, hone (hparam 2)⟩
  | 3, rfl => exact ⟨.iconst rfl, nofun⟩
  | 4, rfl =>
      refine ⟨.intBinary rfl rfl rfl rfl, List.forall_mem_cons.mpr ⟨?_, hone ?_⟩⟩
      · exact hresult 2 (by decide) List.mem_cons_self
      · exact hresult 3 (by decide) List.mem_cons_self
  | 5, rfl => exact ⟨.return_ rfl, hone (hresult 4 (by decide) List.mem_cons_self)⟩

theorem usesPointers : UsesPointers kept := by
  intro b hb
  cases List.mem_singleton.mp hb
  decide

end Kept

section

local instance referenceFmt : RustCore := .blank

end

end LowerIrUtils.Sim
