import LowerIrUtils.Sim.Step

/-!
# What one instruction can do

`Effect` lists the outcomes of `Simulator::step` once and for all, with the state each
leaves behind, and `effect_step` says the list is complete.  Every invariant of a run is
a case analysis on it; no later proof unfolds `step` to find out what changed.

Two outcomes are not on the list.  No instruction reports an exhausted step budget,
which is for `run` alone (`SimError.FaultOf`), and no instruction panics:
`format_call_args` slices the memory only within its bounds.
-/

namespace LowerIrUtils.Sim

open Clif Bits

/-! ## Reading registers -/

theorem RunState.get_eq_ok {state : RunState} {v : Value} {x : SimValue}
    (h : state.registers v = some x) : state.get v = .ok x := by
  simp only [RunState.get, h]

theorem RunState.getAll_eq_ok_iff {state : RunState} {vs : List Value} {xs : List SimValue} :
    state.getAll vs = .ok xs ↔ state.registers.lookupAll vs = .ok xs := by
  unfold RunState.getAll
  cases state.registers.lookupAll vs <;> simp [Except.mapError]

/-- A list of values is read exactly if each of them is bound. -/
theorem RunState.exists_getAll_iff {state : RunState} {vs : List Value} :
    (∃ xs, state.getAll vs = .ok xs) ↔ ∀ v ∈ vs, (state.registers v).isSome := by
  constructor
  · rintro ⟨xs, h⟩ v hv
    have hmap := Env.lookupAll_eq_ok_iff.mp (RunState.getAll_eq_ok_iff.mp h)
    have hmem : state.registers v ∈ xs.map some := hmap ▸ List.mem_map_of_mem hv
    obtain ⟨x, -, hx⟩ := List.mem_map.mp hmem
    rw [← hx]
    rfl
  · intro h
    obtain ⟨xs, hxs⟩ := Env.exists_lookupAll h
    exact ⟨xs, RunState.getAll_eq_ok_iff.mpr hxs⟩

/-! ## Computing on bound operands -/

section

variable [RustCore] {func : Function} {state : RunState} {inst : Inst}

theorem compute_binary {opcode : Opcode} {x y : Value} {a b : SimValue}
    (hx : state.registers x = some a) (hy : state.registers y = some b) :
    compute func state inst (.binary opcode x y) = applyBinary opcode a b := by
  rw [compute, RunState.get_eq_ok hx, RunState.get_eq_ok hy]
  rfl

theorem compute_unary {opcode : Opcode} {arg : Value} {a : SimValue}
    (harg : state.registers arg = some a) :
    compute func state inst (.unary opcode arg) =
      applyUnary opcode a ((resultTy func inst 0).getD a.ty) := by
  rw [compute, RunState.get_eq_ok harg]
  rfl

theorem compute_bitcast {arg : Value} {a : SimValue} (harg : state.registers arg = some a) :
    compute func state inst (.loadNoOffset .bitcast arg) =
      applyUnary .bitcast a ((resultTy func inst 0).getD a.ty) := by
  rw [compute, RunState.get_eq_ok harg]
  rfl

theorem compute_intCompare {opcode : Opcode} {cond : IntCC} {x y : Value} {a b : SimValue}
    (hx : state.registers x = some a) (hy : state.registers y = some b) :
    compute func state inst (.intCompare opcode cond x y) = .ok (ofBool (icmp cond a b)) := by
  rw [compute, RunState.get_eq_ok hx, RunState.get_eq_ok hy]
  rfl

theorem compute_floatCompare {opcode : Opcode} {cond : FloatCC} {x y : Value} {a b : SimValue}
    (hx : state.registers x = some a) (hy : state.registers y = some b) :
    compute func state inst (.floatCompare opcode cond x y) = .ok (ofBool (fcmp cond a b)) := by
  rw [compute, RunState.get_eq_ok hx, RunState.get_eq_ok hy]
  rfl

theorem compute_select {c x y : Value} {i a b : SimValue} (hc : state.registers c = some i)
    (hx : state.registers x = some a) (hy : state.registers y = some b) :
    compute func state inst (.ternary .select c x y) = .ok (if i.asI64 ≠ 0 then a else b) := by
  rw [compute, RunState.get_eq_ok hc, RunState.get_eq_ok hx, RunState.get_eq_ok hy]
  rfl

theorem compute_load {opcode : Opcode} {arg : Value} {offset : BitVec 32} {base : SimValue}
    (harg : state.registers arg = some base) :
    compute func state inst (.load opcode arg offset) =
      loadFrom state.memory (effectiveAddr base offset) ((resultTy func inst 0).getD .I64) := by
  rw [compute, RunState.get_eq_ok harg]
  rfl

/-- A store is carried out, or it is out of bounds. -/
theorem storeStep_of_bound (func : Function) (inst : Inst) (opcode : Opcode)
    (offset : BitVec 32) {x p : Value} {val base : SimValue} (hx : state.registers x = some val)
    (hp : state.registers p = some base) :
    ∃ r, (storeStep func state inst opcode x p offset).2 = r ∧
      (r = .continue_ ∨ ∃ addr size len, r = .error (.outOfBounds addr size len)) := by
  simp only [storeStep, RunState.get_eq_ok hx, RunState.get_eq_ok hp]
  split
  · rename_i mem e he
    obtain ⟨-, rfl⟩ := storeTo_error he
    exact ⟨_, rfl, .inr ⟨_, _, _, rfl⟩⟩
  · exact ⟨_, rfl, .inl rfl⟩

end

/-! ## Errors of an instruction -/

/-- The errors an instruction with these operands may raise: an undefined value is one of
them, and an exhausted step budget is for `run` alone. -/
def SimError.FaultOf (operands : List Value) : SimError → Prop
  | .undefinedValue v => v ∈ operands
  | .stepLimitExceeded _ => False
  | _ => True

/-- A result that is no error, or one an instruction with these operands may raise. -/
def FaultsOf {α : Type} (operands : List Value) (r : Except SimError α) : Prop :=
  ∀ e, r = .error e → e.FaultOf operands

namespace FaultsOf

variable {α β : Type} {operands : List Value}

theorem ok (x : α) : FaultsOf operands (.ok x : Except SimError α) := by
  intro e h
  cases h

theorem error {e : SimError} (he : e.FaultOf operands) :
    FaultsOf operands (.error e : Except SimError α) := by
  intro e' h
  cases h
  exact he

theorem bind {r : Except SimError α} {g : α → Except SimError β} (hr : FaultsOf operands r)
    (hg : ∀ x, FaultsOf operands (g x)) : FaultsOf operands (r >>= g) := by
  cases r with
  | error e => exact error (hr e rfl)
  | ok x => exact hg x

theorem map {r : Except SimError α} (hr : FaultsOf operands r) (g : α → β) :
    FaultsOf operands (r.map g) := by
  cases r with
  | error e => exact error (hr e rfl)
  | ok x => exact ok (g x)

end FaultsOf

section

variable {operands : List Value}

theorem faultsOf_get (state : RunState) {v : Value} (h : v ∈ operands) :
    FaultsOf operands (state.get v) := by
  unfold RunState.get
  split
  · exact .ok _
  · exact .error h

theorem faultsOf_getAll (state : RunState) {vs : List Value} (h : ∀ v ∈ vs, v ∈ operands) :
    FaultsOf operands (state.getAll vs) := by
  unfold RunState.getAll
  cases hlookup : state.registers.lookupAll vs with
  | ok xs => exact .ok xs
  | error v =>
      obtain ⟨pre, post, rfl, -⟩ := Env.lookupAll_eq_error_iff.mp hlookup
      exact .error (h v (by simp))

theorem faultsOf_applyInt (op : Opcode) (x y : BitVec 64) (width : Nat) :
    FaultsOf operands (applyInt op x y width) := by
  unfold applyInt
  cases op <;> first | exact .ok _ | exact .error trivial

theorem faultsOf_applyFloat [Ieee754.NanBits] (op : Opcode) (x y : Ieee754.F64) :
    FaultsOf operands (applyFloat op x y) := by
  unfold applyFloat
  cases op <;> first | exact .ok _ | exact .error trivial

theorem faultsOf_applyBinary [Ieee754.NanBits] (op : Opcode) (a b : SimValue) :
    FaultsOf operands (applyBinary op a b) := by
  unfold applyBinary
  split
  case h_5 => exact (faultsOf_applyFloat op _ _).map _
  case h_6 => exact (faultsOf_applyFloat op _ _).map _
  case h_7 => exact .error trivial
  all_goals exact (faultsOf_applyInt op _ _ _).map _

/-- Taking a raw integer at a type fails with a type mismatch only. -/
theorem faultsOf_ofI64 (raw : BitVec 64) (ty : Ty) (what : String) :
    FaultsOf operands (match SimValue.ofI64 raw ty with
      | some v => .ok v
      | none => .error (.typeMismatch what)) := by
  split
  · exact .ok _
  · exact .error trivial

theorem faultsOf_applyExtend (op : Opcode) (a : SimValue) (ty : Ty) :
    FaultsOf operands (applyExtend op a ty) := by
  unfold applyExtend
  refine FaultsOf.bind ?_ fun raw ↦ faultsOf_ofI64 raw ty _
  unfold extendRaw
  split <;> first | exact .ok _ | exact .error trivial

theorem faultsOf_applyUnary (op : Opcode) (a : SimValue) (ty : Ty) :
    FaultsOf operands (applyUnary op a ty) := by
  unfold applyUnary
  split
  case h_4 => exact faultsOf_applyExtend _ a ty
  case h_5 => exact faultsOf_applyExtend _ a ty
  case h_6 => exact faultsOf_ofI64 _ ty _
  case h_7 =>
    split
    · exact .ok _
    · exact .ok _
    · exact faultsOf_ofI64 _ _ _
  case h_8 => exact .error trivial
  all_goals split <;> first | exact .ok _ | exact .error trivial

theorem faultsOf_loadFrom (mem : Memory) (addr : BitVec 64) (ty : Ty) :
    FaultsOf operands (loadFrom mem addr ty) := by
  intro e h
  rcases loadFrom_error h with rfl | rfl <;> trivial

end

theorem faultsOf_compute [RustCore] (func : Function) (state : RunState) (inst : Inst)
    (data : InstructionData) : FaultsOf data.operands (compute func state inst data) := by
  have hget {ops : List Value} {v : Value} (h : v ∈ ops) := faultsOf_get state h
  unfold compute
  split
  case h_1 => exact faultsOf_ofI64 _ _ _
  case h_4 =>
    exact (hget (by simp [InstructionData.operands])).bind fun a ↦
      (hget (by simp [InstructionData.operands])).bind fun b ↦ faultsOf_applyBinary _ a b
  case h_5 =>
    exact (hget (by simp [InstructionData.operands])).bind fun a ↦ faultsOf_applyUnary _ a _
  case h_6 =>
    exact (hget (by simp [InstructionData.operands])).bind fun a ↦ faultsOf_applyUnary _ a _
  case h_7 =>
    exact (hget (by simp [InstructionData.operands])).bind fun a ↦
      (hget (by simp [InstructionData.operands])).bind fun b ↦ .ok _
  case h_8 =>
    exact (hget (by simp [InstructionData.operands])).bind fun a ↦
      (hget (by simp [InstructionData.operands])).bind fun b ↦ .ok _
  case h_9 =>
    exact (hget (by simp [InstructionData.operands])).bind fun c ↦
      (hget (by simp [InstructionData.operands])).bind fun x ↦
        (hget (by simp [InstructionData.operands])).bind fun y ↦ .ok _
  case h_10 =>
    exact (hget (by simp [InstructionData.operands])).bind fun base ↦ faultsOf_loadFrom _ _ _
  case h_11 => exact .error trivial
  all_goals exact .ok _

theorem bindZeros_of_isSim {dfg : DataFlowGraph} {v : Value} {zero : SimValue}
    (h : SimValue.zeroOf (dfg.valueType v) = some zero) (vs : List Value) (regs : Registers) :
    bindZeros dfg (v :: vs) regs = bindZeros dfg vs (regs.insert v zero) := by
  simp only [bindZeros, h]

/-- Only results are filled. -/
theorem bindZeros_of_not_mem {dfg : DataFlowGraph} {vs : List Value} {v : Value} (h : v ∉ vs)
    (regs : Registers) : (bindZeros dfg vs regs).1 v = regs v := by
  induction vs generalizing regs with
  | nil => rfl
  | cons u vs ih =>
      obtain ⟨hne, hvs⟩ := not_or.mp (fun hor ↦ h (List.mem_cons.mpr hor))
      cases hzero : SimValue.zeroOf (dfg.valueType u) with
      | none => simp only [bindZeros, hzero]
      | some zero => rw [bindZeros_of_isSim hzero, ih hvs, Env.insert_of_ne _ _ hne]

/-- The zeros are refused with a type mismatch that names the type of a result. -/
theorem bindZeros_error {dfg : DataFlowGraph} {vs : List Value} {regs regs' : Registers}
    {e : SimError} (h : bindZeros dfg vs regs = (regs', some e)) :
    ∃ v ∈ vs, (dfg.valueType v).isSim = false ∧
      e = .typeMismatch s!"call result type {(dfg.valueType v).name} not supported" := by
  induction vs generalizing regs with
  | nil => cases h
  | cons v vs ih =>
      simp only [bindZeros] at h
      split at h
      · obtain ⟨u, hu, he⟩ := ih h
        exact ⟨u, List.mem_cons_of_mem v hu, he⟩
      · rename_i hzero
        cases h
        refine ⟨v, List.mem_cons_self, ?_, rfl⟩
        rw [← SimValue.isSome_zeroOf, hzero]
        rfl

/-! ## The trace of a call -/

theorem isSome_strPreview (mem : Memory) (p l : BitVec 64) : (strPreview mem p l).isSome := by
  have hlen : mem.length < 2 ^ 63 := mem.length_lt
  unfold strPreview
  split
  · dsimp only
    split
    · rename_i hhi
      -- the end of the slice did not saturate, since it is in bounds
      have hlo : p.toNat ≤ min (p.toNat + l.toNat) (2 ^ 64 - 1) := by
        have := p.isLt
        omega
      rw [Memory.slice?, if_pos ⟨hlo, hhi⟩]
      rfl
    · rfl
  · rfl

section Trace

variable [RustCore]

theorem isSome_formatCallParts (mem : Memory) (args : List SimValue) :
    (formatCallParts mem args).isSome := by
  induction args using formatCallParts.induct with
  | case1 => rfl
  | case2 p l rest ihRest ih =>
      obtain ⟨s, hs⟩ := Option.isSome_iff_exists.mp (isSome_strPreview mem p l)
      obtain ⟨parts, hparts⟩ := Option.isSome_iff_exists.mp ihRest
      obtain ⟨parts', hparts'⟩ := Option.isSome_iff_exists.mp ih
      rw [formatCallParts, hs]
      cases s with
      | none => simp [hparts']
      | some s => simp [hparts]
  | case3 v rest hpair ih =>
      obtain ⟨parts, hparts⟩ := Option.isSome_iff_exists.mp ih
      rw [formatCallParts]
      · simp [hparts]
      · exact hpair

/-- Tracing a call never panics. -/
theorem exists_formatCallArgs (args : List SimValue) (mem : Memory) :
    ∃ s, formatCallArgs args mem = some s := by
  obtain ⟨parts, hparts⟩ := Option.isSome_iff_exists.mp (isSome_formatCallParts mem args)
  exact ⟨", ".intercalate parts, by rw [formatCallArgs, hparts]; rfl⟩

/-! ## The outcomes of an instruction -/

@[simp] theorem memory_bindResults (func : Function) (inst : Inst) (opcode : Opcode)
    (produced : List SimValue) (state : RunState) :
    (bindResults func inst opcode produced state).memory = state.memory := by
  simp [bindResults]

@[simp] theorem registers_bindResults (func : Function) (inst : Inst) (opcode : Opcode)
    (produced : List SimValue) (state : RunState) :
    (bindResults func inst opcode produced state).registers =
      Env.insertAll (func.dfg.instResults inst) produced state.registers := by
  simp [bindResults]

/-- The possible outcomes of an instruction in a state. -/
inductive Effect (func : Function) (state : RunState) (inst : Inst) :
    InstructionData → RunState → StepResult → Prop
  /-- The instruction fails and leaves everything as it was. -/
  | fault {data : InstructionData} {e : SimError} (he : e.FaultOf data.operands) :
      Effect func state inst data state (.error e)
  /-- The instruction gives a value, which its result is bound to. -/
  | value {data : InstructionData} {v : SimValue} (h : compute func state inst data = .ok v) :
      Effect func state inst data (bindResults func inst data.opcode [v] state) .continue_
  /-- A store in bounds. -/
  | store {opcode : Opcode} {x p : Value} {offset : BitVec 32} {val base : SimValue}
      (hx : state.get x = .ok val) (hp : state.get p = .ok base)
      (hle : (effectiveAddr base offset).toNat + val.ty.bytes ≤ state.memory.length) :
      Effect func state inst (.store opcode x p offset)
        (bindResults func inst opcode []
          { state with
            memory := state.memory.write (effectiveAddr base offset).toNat val.toBytes })
        .continue_
  /-- A jump along one of the branches of the instruction. -/
  | branch {data : InstructionData} {dest : BlockCall} {params : List SimValue} {line : String}
      (hdest : dest ∈ data.destinations) (h : state.getAll dest.values = .ok params) :
      Effect func state inst data (state.log line) (.jump dest.block params)
  | return_ {args : List Value} {vals : List SimValue} {line : String}
      (h : state.getAll args = .ok vals) :
      Effect func state inst (.multiAry .return_ args) (state.log line) (.return_ vals)
  /-- A call, whose results are zeros as far as there are any. -/
  | call {opcode : Opcode} {args : List Value} {funcRef : FuncRef} {vals : List SimValue}
      {line : String} (h : state.getAll args = .ok vals) {registers : Registers}
      {e : Option SimError}
      (hz : bindZeros func.dfg (func.dfg.instResults inst) state.registers = (registers, e)) :
      Effect func state inst (.call opcode args funcRef) { state.log line with registers }
        (e.elim .continue_ .error)

section

variable {func : Function} {state : RunState} {inst : Inst}

omit [RustCore] in
/-- What a branch passes on is among the operands of the instruction. -/
theorem mem_operands_of_mem_values {data : InstructionData} {dest : BlockCall}
    (hdest : dest ∈ data.destinations) {v : Value} (hv : v ∈ dest.values) :
    v ∈ data.operands := by
  cases data with
  | jump opcode d =>
      rw [List.mem_singleton.mp hdest] at hv
      exact hv
  | brif opcode c thenDest elseDest =>
      have hdest' : dest = thenDest ∨ dest = elseDest := by
        simpa [InstructionData.destinations] using hdest
      rcases hdest' with rfl | rfl
      · exact List.mem_cons_of_mem _ (List.mem_append_left _ hv)
      · exact List.mem_cons_of_mem _ (List.mem_append_right _ hv)
  | _ => cases hdest

theorem effect_branchTo {data : InstructionData} {dest : BlockCall}
    (hdest : dest ∈ data.destinations) (line : String) :
    Effect func state inst data (branchTo state dest line).1 (branchTo state dest line).2 := by
  unfold branchTo
  cases h : state.getAll dest.values with
  | error e =>
      exact .fault (faultsOf_getAll state (fun v hv ↦ mem_operands_of_mem_values hdest hv) e h)
  | ok params => exact .branch hdest h

theorem effect_computeStep (data : InstructionData) :
    Effect func state inst data (computeStep func state inst data).1
      (computeStep func state inst data).2 := by
  unfold computeStep
  cases h : compute func state inst data with
  | error e => exact .fault (faultsOf_compute func state inst data e h)
  | ok v => exact .value h

theorem effect_storeStep {opcode : Opcode} {x p : Value} {offset : BitVec 32} :
    Effect func state inst (.store opcode x p offset)
      (storeStep func state inst opcode x p offset).1
      (storeStep func state inst opcode x p offset).2 := by
  unfold storeStep
  cases hx : state.get x with
  | error e => exact .fault (faultsOf_get state List.mem_cons_self e hx)
  | ok val =>
      cases hp : state.get p with
      | error e =>
          exact .fault (faultsOf_get state (List.mem_cons_of_mem x List.mem_cons_self) e hp)
      | ok base =>
          rcases Nat.lt_or_ge state.memory.length
            ((effectiveAddr base offset).toNat + val.ty.bytes) with hlt | hle
          · simp only [storeTo_of_lt hlt]
            exact .fault trivial
          · simp only [storeTo_of_le hle]
            exact .store hx hp hle

theorem effect_brifStep {opcode : Opcode} {arg : Value} {thenDest elseDest : BlockCall} :
    Effect func state inst (.brif opcode arg thenDest elseDest)
      (brifStep state arg thenDest elseDest).1 (brifStep state arg thenDest elseDest).2 := by
  unfold brifStep
  cases h : state.get arg with
  | error e => exact .fault (faultsOf_get state List.mem_cons_self e h)
  | ok c =>
      apply effect_branchTo
      cases decide (c.asI64 ≠ 0) <;> simp [InstructionData.destinations]

theorem effect_returnStep {args : List Value} :
    Effect func state inst (.multiAry .return_ args) (returnStep state args).1
      (returnStep state args).2 := by
  unfold returnStep
  cases h : state.getAll args with
  | error e => exact .fault (faultsOf_getAll state (fun _ hv ↦ hv) e h)
  | ok vals => exact .return_ h

variable (func inst) in
/-- A call whose arguments are bound fills its results, after at most a line of trace. -/
theorem callStep_of_ok (funcRef : FuncRef) {args : List Value} {vals : List SimValue}
    (h : state.getAll args = .ok vals) :
    ∃ line, callStep func state inst funcRef args = fillResults func inst (state.log line) := by
  unfold callStep
  rw [h]
  cases htrace : state.recordTrace with
  | false => exact ⟨"", by simp [RunState.log, htrace]⟩
  | true =>
      obtain ⟨s, hs⟩ := exists_formatCallArgs vals state.memory
      simp only [↓reduceIte, hs]
      exact ⟨_, rfl⟩

omit [RustCore] in
theorem fillResults_eq (func : Function) (inst : Inst) (state : RunState) :
    fillResults func inst state =
      ({ state with
          registers := (bindZeros func.dfg (func.dfg.instResults inst) state.registers).1 },
        (bindZeros func.dfg (func.dfg.instResults inst) state.registers).2.elim
          .continue_ .error) := by
  unfold fillResults
  rcases bindZeros func.dfg (func.dfg.instResults inst) state.registers with ⟨registers, e⟩
  cases e <;> rfl

theorem effect_callStep {opcode : Opcode} {args : List Value} {funcRef : FuncRef} :
    Effect func state inst (.call opcode args funcRef)
      (callStep func state inst funcRef args).1 (callStep func state inst funcRef args).2 := by
  cases h : state.getAll args with
  | error e =>
      simp only [callStep, h]
      exact .fault (faultsOf_getAll state (fun _ hv ↦ hv) e h)
  | ok vals =>
      obtain ⟨line, hcall⟩ := callStep_of_ok func inst funcRef h
      rw [hcall, fillResults_eq, RunState.registers_log]
      exact .call h rfl

variable (func state inst) in
/-- The list of outcomes is complete. -/
theorem effect_step (data : InstructionData) :
    Effect func state inst data (step func state inst data).1 (step func state inst data).2 := by
  cases data with
  | store opcode x p offset => exact effect_storeStep
  | jump opcode dest => exact effect_branchTo List.mem_cons_self _
  | brif opcode arg thenDest elseDest => exact effect_brifStep
  | multiAry opcode args =>
      cases opcode
      case return_ => exact effect_returnStep
      all_goals exact effect_computeStep _
  | call opcode args funcRef => exact effect_callStep
  | _ => exact effect_computeStep _

theorem effect_of_step {data : InstructionData} {state' : RunState} {r : StepResult}
    (h : step func state inst data = (state', r)) : Effect func state inst data state' r := by
  have heffect := effect_step func state inst data
  rwa [h] at heffect

/-- An instruction binds only its results. -/
theorem registers_step_of_not_mem {data : InstructionData} {v : Value}
    (hv : v ∉ func.dfg.instResults inst) :
    (step func state inst data).1.registers v = state.registers v := by
  rcases hstep : step func state inst data with ⟨state', r⟩
  cases effect_of_step hstep with
  | fault he => rfl
  | value h => rw [registers_bindResults, Env.insertAll_of_not_mem hv]
  | store hx hp hle => rw [registers_bindResults, Env.insertAll_nil_right]
  | branch hdest h => rw [RunState.registers_log]
  | return_ h => rw [RunState.registers_log]
  | call h hz =>
      have hregs : (bindZeros func.dfg (func.dfg.instResults inst) state.registers).1 v = _ :=
        bindZeros_of_not_mem hv state.registers
      rw [hz] at hregs
      exact hregs

end

end Trace

end LowerIrUtils.Sim
