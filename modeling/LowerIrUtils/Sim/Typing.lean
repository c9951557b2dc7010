import LowerIrUtils.Clif.Verifier
import LowerIrUtils.Sim.BitOps
import LowerIrUtils.Sim.MemoryLog

/-!
# Well-typed instructions

An instruction the verifier accepts, whose operands are bound to values of their
declared types, makes progress: it binds its results to values of their declared types,
takes a branch with values of the types of the parameters, returns values of the types
of the signature, or is an access out of bounds (`progress_step`).
-/

namespace LowerIrUtils.Sim

open Clif

/-! ## Types of results -/

/-- Integer arithmetic on two values of one type gives a value of that type. -/
theorem applyBinary_int [Ieee754.NanBits] {op : Opcode} (h : op.isIntBinary) {a b : SimValue}
    (hab : a.ty = b.ty) (hty : a.ty.isSimInt) : ∃ v, applyBinary op a b = .ok v ∧ v.ty = a.ty := by
  obtain ⟨x, y, r, v, -, -, -, hv, hbits⟩ := exists_applyBinary h hty hab.symm
  exact ⟨v, hv, by rw [← v.ty_toBits, hbits]⟩

/-- Float arithmetic on two values of one type gives a value of that type. -/
theorem applyBinary_float [Ieee754.NanBits] {op : Opcode} (h : op.isFloatBinary) {a b : SimValue}
    (hab : a.ty = b.ty) (hty : a.ty.isSimFloat) :
    ∃ v, applyBinary op a b = .ok v ∧ v.ty = a.ty := by
  cases a with
  | F32 x =>
      cases b <;> cases hab
      obtain ⟨r, hr⟩ := exists_applyFloat h x.toF64 _
      rw [applyBinary, hr]
      exact ⟨_, rfl, rfl⟩
  | F64 x =>
      cases b <;> cases hab
      obtain ⟨r, hr⟩ := exists_applyFloat h x _
      rw [applyBinary, hr]
      exact ⟨_, rfl, rfl⟩
  | _ => cases hty

theorem applyUnary_ineg {a : SimValue} (h : a.ty.isSimInt) (ty : Ty) :
    ∃ v, applyUnary .ineg a ty = .ok v ∧ v.ty = a.ty := by
  cases a <;> first | exact ⟨_, rfl, rfl⟩ | cases h

theorem applyUnary_bnot {a : SimValue} (h : a.ty.isSimInt) (ty : Ty) :
    ∃ v, applyUnary .bnot a ty = .ok v ∧ v.ty = a.ty := by
  cases a <;> first | exact ⟨_, rfl, rfl⟩ | cases h

theorem applyUnary_fneg {a : SimValue} (h : a.ty.isSimFloat) (ty : Ty) :
    ∃ v, applyUnary .fneg a ty = .ok v ∧ v.ty = a.ty := by
  cases a <;> first | exact ⟨_, rfl, rfl⟩ | cases h

theorem applyUnary_uextend {a : SimValue} (h : a.ty.isSimInt) {ty : Ty} (hty : ty.isSimInt) :
    ∃ v, applyUnary .uextend a ty = .ok v ∧ v.ty = ty := by
  have hraw : ∃ raw, extendRaw .uextend a = .ok raw := by
    cases a <;> first | exact ⟨_, rfl⟩ | cases h
  obtain ⟨raw, hraw⟩ := hraw
  obtain ⟨v, hv, hvty⟩ := SimValue.exists_ofI64 raw hty
  exact ⟨v, applyExtend_eq_ok_iff.mpr ⟨raw, hraw, hv⟩, hvty⟩

theorem applyUnary_sextend (a : SimValue) {ty : Ty} (hty : ty.isSimInt) :
    ∃ v, applyUnary .sextend a ty = .ok v ∧ v.ty = ty := by
  obtain ⟨v, hv, hvty⟩ := SimValue.exists_ofI64 a.asI64 hty
  exact ⟨v, applyExtend_eq_ok_iff.mpr ⟨a.asI64, rfl, hv⟩, hvty⟩

theorem applyUnary_ireduce (a : SimValue) {ty : Ty} (hty : ty.isSimInt) :
    ∃ v, applyUnary .ireduce a ty = .ok v ∧ v.ty = ty := by
  obtain ⟨v, hv, hvty⟩ := SimValue.exists_ofI64 a.asI64 hty
  exact ⟨v, applyUnary_ireduce_eq_ok_iff.mpr hv, hvty⟩

theorem applyUnary_bitcast (a : SimValue) {ty : Ty} (hty : ty.isSim) :
    ∃ v, applyUnary .bitcast a ty = .ok v ∧ v.ty = ty := by
  cases ty <;> first | exact ⟨_, rfl, rfl⟩ | cases hty

/-- The results of a call are filled with zero bits. -/
theorem bindZeros_toBits {dfg : DataFlowGraph} (vs : List Value) (registers : Registers)
    (h : ∀ v ∈ vs, (dfg.valueType v).isSim) :
    ∃ zeros, bindZeros dfg vs registers = (Env.insertAll vs zeros registers, none) ∧
      zeros.map SimValue.toBits = vs.map fun v ↦ ⟨dfg.valueType v, 0⟩ := by
  induction vs generalizing registers with
  | nil => exact ⟨[], rfl, rfl⟩
  | cons v vs ih =>
      obtain ⟨zero, hzero⟩ := Option.isSome_iff_exists.mp
        ((SimValue.isSome_zeroOf (dfg.valueType v)).trans (h v List.mem_cons_self))
      obtain ⟨zeros, hzeros, hbits⟩ := ih (registers.insert v zero)
        fun u hu ↦ h u (List.mem_cons_of_mem v hu)
      refine ⟨zero :: zeros, ?_, ?_⟩
      · rw [bindZeros_of_isSim hzero, hzeros]
        rfl
      · rw [List.map_cons, List.map_cons, hbits, SimValue.toBits_zeroOf hzero]

/-- Results of simulated types are filled with zeros of their types. -/
theorem bindZeros_of_forall {dfg : DataFlowGraph} (vs : List Value) (registers : Registers)
    (h : ∀ v ∈ vs, (dfg.valueType v).isSim) :
    ∃ zeros, bindZeros dfg vs registers = (Env.insertAll vs zeros registers, none) ∧
      zeros.map SimValue.ty = vs.map dfg.valueType := by
  obtain ⟨zeros, hzeros, hbits⟩ := bindZeros_toBits vs registers h
  refine ⟨zeros, hzeros, ?_⟩
  have htys := congrArg (List.map Reference.BitVal.ty) hbits
  rw [List.map_map, List.map_map] at htys
  calc zeros.map SimValue.ty
    _ = zeros.map (Reference.BitVal.ty ∘ SimValue.toBits) :=
        List.map_congr_left fun v _ ↦ v.ty_toBits.symm
    _ = vs.map dfg.valueType := htys

/-! ## Typed registers -/

/-- Every bound register holds a value of the type the function declares for it. -/
def RegistersTyped (func : Function) (registers : Registers) : Prop :=
  ∀ v x, registers v = some x → x.ty = func.dfg.valueType v

/-- The values are bound. -/
def Bound (registers : Registers) (vs : List Value) : Prop := ∀ v ∈ vs, (registers v).isSome

namespace RegistersTyped

variable {func : Function} {registers : Registers}

theorem exists_value (h : RegistersTyped func registers) {v : Value}
    (hv : (registers v).isSome) : ∃ x, registers v = some x ∧ x.ty = func.dfg.valueType v := by
  obtain ⟨x, hx⟩ := Option.isSome_iff_exists.mp hv
  exact ⟨x, hx, h v x hx⟩

/-- The values read from bound registers have the declared types. -/
theorem exists_lookupAll (h : RegistersTyped func registers) {vs : List Value}
    (hvs : Bound registers vs) : ∃ xs, registers.lookupAll vs = .ok xs ∧
      xs.map SimValue.ty = vs.map func.dfg.valueType := by
  induction vs with
  | nil => exact ⟨[], rfl, rfl⟩
  | cons v vs ih =>
      obtain ⟨x, hx, hty⟩ := h.exists_value (hvs v List.mem_cons_self)
      obtain ⟨xs, hxs, htys⟩ := ih fun u hu ↦ hvs u (List.mem_cons_of_mem v hu)
      refine ⟨x :: xs, ?_, ?_⟩
      · rw [Env.lookupAll_cons_of_some hx, hxs]
        rfl
      · rw [List.map_cons, List.map_cons, hty, htys]

/-- Binding values of the declared types keeps the registers typed. -/
theorem insertAll (h : RegistersTyped func registers) {vs : List Value} {xs : List SimValue}
    (htys : xs.map SimValue.ty = vs.map func.dfg.valueType) :
    RegistersTyped func (Env.insertAll vs xs registers) := by
  intro v x hvx
  rcases Env.insertAll_eq_some hvx with ⟨i, hv, hx⟩ | hold
  · have hi := congrArg (·[i]?) htys
    simp only [List.getElem?_map, hv, hx, Option.map_some, Option.some.injEq] at hi
    exact hi
  · exact h v x hold

theorem empty (func : Function) : RegistersTyped func .empty := by
  intro v x h
  cases h

end RegistersTyped

theorem Bound.getAll {func : Function} {state : RunState} {vs : List Value}
    (h : Bound state.registers vs) (htyped : RegistersTyped func state.registers) :
    ∃ xs, state.getAll vs = .ok xs ∧ xs.map SimValue.ty = vs.map func.dfg.valueType := by
  obtain ⟨xs, hxs, htys⟩ := htyped.exists_lookupAll h
  exact ⟨xs, RunState.getAll_eq_ok_iff.mpr hxs, htys⟩

/-- The arguments of a branch are among the operands. -/
theorem Bound.values {registers : Registers} {data : InstructionData} {dest : BlockCall}
    (h : Bound registers data.operands) (hdest : dest ∈ data.destinations) :
    Bound registers dest.values :=
  fun v hv ↦ h v (mem_operands_of_mem_values hdest hv)

/-! ## Progress -/

/-- The outcomes of a well-typed instruction. -/
inductive Progress (func : Function) (state : RunState) (inst : Inst) (data : InstructionData) :
    RunState → StepResult → Prop
  | bind {state' : RunState} {xs : List SimValue}
      (hterm : data.isTerminator = false)
      (hregisters : state'.registers =
        Env.insertAll (func.dfg.instResults inst) xs state.registers)
      (htys : xs.map SimValue.ty = (func.dfg.instResults inst).map func.dfg.valueType) :
      Progress func state inst data state' .continue_
  | branch {state' : RunState} {dest : BlockCall} {params : List SimValue}
      (hdest : dest ∈ data.destinations) (htarget : dest.block ∈ func.layout.blocks)
      (hresults : func.dfg.instResults inst = [])
      (hregisters : state'.registers = state.registers)
      (htys : params.map SimValue.ty =
        (func.dfg.blockParams dest.block).map func.dfg.valueType) :
      Progress func state inst data state' (.jump dest.block params)
  | return_ {state' : RunState} {vals : List SimValue}
      (hregisters : state'.registers = state.registers)
      (htys : vals.map SimValue.ty = func.signature.returns) :
      Progress func state inst data state' (.return_ vals)
  | outOfBounds {addr size : Nat} :
      Progress func state inst data state (.error (.outOfBounds addr size state.memory.length))

variable [RustCore] {func : Function} {state : RunState} {inst : Inst} {data : InstructionData}

omit [RustCore] in
theorem exists_result {ty : Ty}
    (h : (func.dfg.instResults inst).map func.dfg.valueType = [ty]) :
    ∃ r, func.dfg.instResults inst = [r] ∧ func.dfg.valueType r = ty := by
  obtain ⟨r, hr⟩ := List.length_eq_one_iff.mp (by simpa using congrArg List.length h)
  rw [hr] at h
  exact ⟨r, hr, (List.cons.inj h).1⟩

omit [RustCore] in
/-- The closure `result_ty` gives the type of the result. -/
theorem resultTy_eq {ty : Ty} (h : (func.dfg.instResults inst).map func.dfg.valueType = [ty]) :
    resultTy func inst 0 = some ty := by
  obtain ⟨r, hr, hty⟩ := exists_result h
  rw [resultTy, hr, ← hty]
  rfl

/-- An instruction that computes a value of the type of its result makes progress. -/
theorem progress_of_compute {ty : Ty}
    (hresults : (func.dfg.instResults inst).map func.dfg.valueType = [ty])
    (hstep : step func state inst data = computeStep func state inst data)
    (hterm : data.isTerminator = false)
    (h : ∃ v, compute func state inst data = .ok v ∧ v.ty = ty) :
    Progress func state inst data (step func state inst data).1
      (step func state inst data).2 := by
  obtain ⟨v, hv, hty⟩ := h
  rw [hstep, computeStep, hv]
  refine .bind hterm (registers_bindResults func inst data.opcode [v] state) ?_
  rw [hresults, List.map_singleton, hty]

theorem compute_unary_of_result {op : Opcode} {x : Value} {a : SimValue} {ty : Ty}
    (hresults : (func.dfg.instResults inst).map func.dfg.valueType = [ty])
    (ha : state.registers x = some a) :
    compute func state inst (.unary op x) = applyUnary op a ty := by
  rw [compute_unary ha, resultTy_eq hresults]
  rfl

theorem progress_unary {op : Opcode} {x : Value} {a : SimValue} {ty : Ty}
    (hresults : (func.dfg.instResults inst).map func.dfg.valueType = [ty])
    (ha : state.registers x = some a) (h : ∃ v, applyUnary op a ty = .ok v ∧ v.ty = ty) :
    Progress func state inst (.unary op x) (step func state inst (.unary op x)).1
      (step func state inst (.unary op x)).2 := by
  refine progress_of_compute hresults rfl rfl ?_
  rw [compute_unary_of_result hresults ha]
  exact h

theorem progress_binary {op : Opcode} {x y : Value} {a b : SimValue} {ty : Ty}
    (hresults : (func.dfg.instResults inst).map func.dfg.valueType = [ty])
    (ha : state.registers x = some a) (hb : state.registers y = some b)
    (h : ∃ v, applyBinary op a b = .ok v ∧ v.ty = ty) :
    Progress func state inst (.binary op x y) (step func state inst (.binary op x y)).1
      (step func state inst (.binary op x y)).2 := by
  refine progress_of_compute hresults rfl rfl ?_
  rw [compute_binary ha hb]
  exact h

omit [RustCore] in
theorem progress_branchTo {dest : BlockCall} (hdest : dest ∈ data.destinations)
    (htyping : BranchTyping func dest) (hresults : func.dfg.instResults inst = [])
    (htyped : RegistersTyped func state.registers) (hbound : Bound state.registers dest.values)
    (line : String) :
    Progress func state inst data (branchTo state dest line).1 (branchTo state dest line).2 := by
  obtain ⟨params, hparams, htys⟩ := hbound.getAll htyped
  rw [branchTo, hparams]
  exact .branch hdest htyping.target hresults (RunState.registers_log state line)
    (htys.trans htyping.types)

theorem progress_brif {c : Value} {thenDest elseDest : BlockCall} {x : SimValue}
    (hx : state.registers c = some x) (hthen : BranchTyping func thenDest)
    (helse : BranchTyping func elseDest) (hresults : func.dfg.instResults inst = [])
    (htyped : RegistersTyped func state.registers)
    (hbound : Bound state.registers (InstructionData.brif .brif c thenDest elseDest).operands) :
    Progress func state inst (.brif .brif c thenDest elseDest)
      (step func state inst (.brif .brif c thenDest elseDest)).1
      (step func state inst (.brif .brif c thenDest elseDest)).2 := by
  show Progress _ _ _ _ (brifStep state c thenDest elseDest).1 (brifStep _ _ _ _).2
  simp only [brifStep, RunState.get_eq_ok hx]
  cases decide (x.asI64 ≠ 0) with
  | true =>
      have hdest : thenDest ∈ (InstructionData.brif .brif c thenDest elseDest).destinations :=
        List.mem_cons_self
      exact progress_branchTo hdest hthen hresults htyped (hbound.values hdest) _
  | false =>
      have hdest : elseDest ∈ (InstructionData.brif .brif c thenDest elseDest).destinations :=
        List.mem_cons_of_mem _ List.mem_cons_self
      exact progress_branchTo hdest helse hresults htyped (hbound.values hdest) _

/-- A load gives a value of the type of its result, or it is out of bounds. -/
theorem progress_load {p : Value} {offset : BitVec 32} {base : SimValue} {ty : Ty}
    (hresults : (func.dfg.instResults inst).map func.dfg.valueType = [ty])
    (hp : state.registers p = some base) (hty : ty.isSim) :
    Progress func state inst (.load .load p offset)
      (step func state inst (.load .load p offset)).1
      (step func state inst (.load .load p offset)).2 := by
  obtain ⟨r, hr, hrty⟩ := exists_result hresults
  rcases Nat.lt_or_ge state.memory.length
    (accessAddr base offset + (func.dfg.valueType r).bytes) with hlt | hle
  · rw [step_load_of_lt hp hr hlt]
    exact .outOfBounds
  · obtain ⟨v, hstep, hvty, -⟩ := step_load_of_le .load hp hr (hrty ▸ hty) hle
    rw [hstep]
    refine .bind rfl (registers_bindResults func inst .load [v] state) ?_
    rw [hr, List.map_singleton, List.map_singleton, hvty]

/-- A store binds nothing, or it is out of bounds. -/
theorem progress_store {x p : Value} {offset : BitVec 32} {val base : SimValue}
    (hresults : func.dfg.instResults inst = []) (hx : state.registers x = some val)
    (hp : state.registers p = some base) :
    Progress func state inst (.store .store x p offset)
      (step func state inst (.store .store x p offset)).1
      (step func state inst (.store .store x p offset)).2 := by
  rcases Nat.lt_or_ge state.memory.length (accessAddr base offset + val.ty.bytes) with hlt | hle
  · rw [step_store_of_lt hx hp hlt]
    exact .outOfBounds
  · rw [step_store_of_le hx hp hle]
    refine .bind rfl (registers_bindResults func inst .store [] _) ?_
    rw [hresults]
    rfl

/-- A call fills its results with zeros of their types. -/
theorem progress_call {args : List Value} {funcRef : FuncRef} {vals : List SimValue}
    (hvals : state.getAll args = .ok vals)
    (htys : ∀ v ∈ func.dfg.instResults inst, (func.dfg.valueType v).isSim) :
    Progress func state inst (.call .call args funcRef)
      (step func state inst (.call .call args funcRef)).1
      (step func state inst (.call .call args funcRef)).2 := by
  obtain ⟨line, hcall⟩ := callStep_of_ok func inst funcRef hvals
  obtain ⟨zeros, hzeros, hzty⟩ :=
    bindZeros_of_forall (func.dfg.instResults inst) state.registers htys
  have hstep : step func state inst (.call .call args funcRef) =
      callStep func state inst funcRef args := rfl
  rw [hstep, hcall, fillResults_eq, RunState.registers_log, hzeros]
  exact .bind rfl rfl hzty

/-- **Progress.**  A well-typed instruction in a typed state with its operands bound has
one of the outcomes of `Progress`. -/
theorem progress_step
    (h : InstTyping func data ((func.dfg.instResults inst).map func.dfg.valueType))
    (htyped : RegistersTyped func state.registers) (hbound : Bound state.registers data.operands) :
    Progress func state inst data (step func state inst data).1
      (step func state inst data).2 := by
  have hvalue (v : Value) (hv : v ∈ data.operands) :=
    htyped.exists_value (hbound v hv)
  generalize hresults : (func.dfg.instResults inst).map func.dfg.valueType = tys at h
  cases h with
  | @iconst imm ty hty =>
      refine progress_of_compute hresults rfl rfl ?_
      obtain ⟨v, hv, hvty⟩ := SimValue.exists_ofI64 imm hty
      refine ⟨v, ?_, hvty⟩
      simp only [compute, resultTy_eq hresults, Option.getD_some, hv]
  | f32const => exact progress_of_compute hresults rfl rfl ⟨_, rfl, rfl⟩
  | f64const => exact progress_of_compute hresults rfl rfl ⟨_, rfl, rfl⟩
  | @intBinary opcode x y ty hop hx hy hty =>
      obtain ⟨a, ha, hxa⟩ := hvalue x (by simp [InstructionData.operands])
      obtain ⟨b, hb, hyb⟩ := hvalue y (by simp [InstructionData.operands])
      obtain rfl : a.ty = ty := hxa.trans hx
      exact progress_binary hresults ha hb (applyBinary_int hop (hyb.trans hy).symm hty)
  | @floatBinary opcode x y ty hop hx hy hty =>
      obtain ⟨a, ha, hxa⟩ := hvalue x (by simp [InstructionData.operands])
      obtain ⟨b, hb, hyb⟩ := hvalue y (by simp [InstructionData.operands])
      obtain rfl : a.ty = ty := hxa.trans hx
      exact progress_binary hresults ha hb (applyBinary_float hop (hyb.trans hy).symm hty)
  | @ineg x ty hx hty =>
      obtain ⟨a, ha, hxa⟩ := hvalue x (by simp [InstructionData.operands])
      obtain rfl : a.ty = ty := hxa.trans hx
      exact progress_unary hresults ha (applyUnary_ineg hty a.ty)
  | @bnot x ty hx hty =>
      obtain ⟨a, ha, hxa⟩ := hvalue x (by simp [InstructionData.operands])
      obtain rfl : a.ty = ty := hxa.trans hx
      exact progress_unary hresults ha (applyUnary_bnot hty a.ty)
  | @fneg x ty hx hty =>
      obtain ⟨a, ha, hxa⟩ := hvalue x (by simp [InstructionData.operands])
      obtain rfl : a.ty = ty := hxa.trans hx
      exact progress_unary hresults ha (applyUnary_fneg hty a.ty)
  | @uextend x ty hx hty hbits =>
      obtain ⟨a, ha, hxa⟩ := hvalue x (by simp [InstructionData.operands])
      rw [← hxa] at hx
      exact progress_unary hresults ha (applyUnary_uextend hx hty)
  | @sextend x ty hx hty hbits =>
      obtain ⟨a, ha, -⟩ := hvalue x (by simp [InstructionData.operands])
      exact progress_unary hresults ha (applyUnary_sextend a hty)
  | @ireduce x ty hx hty hbits =>
      obtain ⟨a, ha, -⟩ := hvalue x (by simp [InstructionData.operands])
      exact progress_unary hresults ha (applyUnary_ireduce a hty)
  | @bitcast x ty hx hty hbits =>
      refine progress_of_compute hresults rfl rfl ?_
      obtain ⟨a, ha, hxa⟩ := hvalue x (by simp [InstructionData.operands])
      rw [compute_bitcast ha, resultTy_eq hresults]
      exact applyUnary_bitcast a hty
  | @icmp cond x y ty hx hy hty =>
      refine progress_of_compute hresults rfl rfl ?_
      obtain ⟨a, ha, -⟩ := hvalue x (by simp [InstructionData.operands])
      obtain ⟨b, hb, -⟩ := hvalue y (by simp [InstructionData.operands])
      rw [compute_intCompare ha hb]
      exact ⟨_, rfl, rfl⟩
  | @fcmp cond x y ty hx hy hty =>
      refine progress_of_compute hresults rfl rfl ?_
      obtain ⟨a, ha, -⟩ := hvalue x (by simp [InstructionData.operands])
      obtain ⟨b, hb, -⟩ := hvalue y (by simp [InstructionData.operands])
      rw [compute_floatCompare ha hb]
      exact ⟨_, rfl, rfl⟩
  | @select c x y ty hc hx hy hty =>
      refine progress_of_compute hresults rfl rfl ?_
      obtain ⟨i, hi, -⟩ := hvalue c (by simp [InstructionData.operands])
      obtain ⟨a, ha, hxa⟩ := hvalue x (by simp [InstructionData.operands])
      obtain ⟨b, hb, hyb⟩ := hvalue y (by simp [InstructionData.operands])
      rw [compute_select hi ha hb]
      refine ⟨_, rfl, ?_⟩
      split
      · rw [hxa, hx]
      · rw [hyb, hy]
  | @load p offset ty hp hty =>
      obtain ⟨base, hbase, -⟩ := hvalue p (by simp [InstructionData.operands])
      exact progress_load hresults hbase hty
  | @store x p offset hx hp =>
      obtain ⟨val, hval, -⟩ := hvalue x (by simp [InstructionData.operands])
      obtain ⟨base, hbase, -⟩ := hvalue p (by simp [InstructionData.operands])
      exact progress_store (List.map_eq_nil_iff.mp hresults) hval hbase
  | @call args funcRef _ hargs hreturns htys =>
      have hboundArgs : Bound state.registers args := hbound
      obtain ⟨vals, hvals, -⟩ := hboundArgs.getAll htyped
      exact progress_call hvals fun v hv ↦ htys _ (hresults ▸ List.mem_map_of_mem hv)
  | @jump dest hdest =>
      exact progress_branchTo List.mem_cons_self hdest (List.map_eq_nil_iff.mp hresults) htyped
        hbound _
  | @brif c thenDest elseDest hc hthen helse =>
      obtain ⟨x, hx, -⟩ := hvalue c (by simp [InstructionData.operands])
      exact progress_brif hx hthen helse (List.map_eq_nil_iff.mp hresults) htyped hbound
  | @return_ args hargs =>
      have hboundArgs : Bound state.registers args := hbound
      obtain ⟨vals, hvals, htys⟩ := hboundArgs.getAll htyped
      have hstep : step func state inst (.multiAry .return_ args) = returnStep state args := rfl
      rw [hstep, returnStep, hvals]
      exact .return_ (RunState.registers_log state _) (htys.trans hargs)

end LowerIrUtils.Sim
