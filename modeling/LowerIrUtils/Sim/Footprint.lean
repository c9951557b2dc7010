import LowerIrUtils.Sim.MemoryLog

/-!
# The footprint of a run

What a run depends on in memory.  Two runs of a function that start with different memories
go through the same steps as long as every access is in bounds in one exactly if it is in the
other, and every byte that is loaded has been stored before or is the same in both.  So bytes
that are not loaded before they are stored do not matter (`run_footprint`), and neither does
memory beyond what is accessed (`run_append`).

A simulator gives its memory to the first run.  What it can still be used for is what needs no
memory (`runEach_spec`).
-/

namespace LowerIrUtils.Sim

open Clif Bits

/-! ## Accesses -/

/-- The address and size of a load whose pointer is bound. -/
def readOf (func : Function) (state : RunState) (inst : Inst) :
    InstructionData → Option (Nat × Nat)
  | .load _ x offset =>
      (state.registers x).map fun base ↦
        (accessAddr base offset, ((resultTy func inst 0).getD .I64).bytes)
  | _ => none

/-- The address and size of a load or store whose operands are bound. -/
def accessOf (func : Function) (state : RunState) (inst : Inst) :
    InstructionData → Option (Nat × Nat)
  | .store _ x p offset => do
      let val ← state.registers x
      let base ← state.registers p
      some (accessAddr base offset, val.ty.bytes)
  | data => readOf func state inst data

/-- The load of the instruction a configuration executes next. -/
def nextRead (func : Function) (config : Config) : Option (Nat × Nat) :=
  match config.status with
  | .halted _ => none
  | .running p => (func.instAt p).bind fun inst ↦ readOf func config.state inst (func.data inst)

/-- The access of the instruction a configuration executes next. -/
def nextAccess (func : Function) (config : Config) : Option (Nat × Nat) :=
  match config.status with
  | .halted _ => none
  | .running p => (func.instAt p).bind fun inst ↦ accessOf func config.state inst (func.data inst)

/-- An access has the same outcome in memories of these lengths. -/
structure SameBounds (length length' addr size : Nat) : Prop where
  inside : addr + size ≤ length' ↔ addr + size ≤ length
  outside : length < addr + size → length' = length

theorem SameBounds.refl (length addr size : Nat) : SameBounds length length addr size :=
  ⟨Iff.rfl, fun _ ↦ rfl⟩

/-- The memories have the same bytes at the addresses of an access. -/
def SameBytes (mem mem' : Memory) (addr size : Nat) : Prop :=
  ∀ i, addr ≤ i → i < addr + size → mem'.bytes[i]? = mem.bytes[i]?

theorem read_eq_of_sameBytes {mem mem' : Memory} {addr size : Nat}
    (h : SameBytes mem mem' addr size) : mem'.read addr size = mem.read addr size := by
  apply List.ext_getElem?
  intro j
  rcases Nat.lt_or_ge j size with hj | hj
  · rw [Memory.getElem?_read _ hj, Memory.getElem?_read _ hj]
    exact h _ (Nat.le_add_right _ _) (Nat.add_lt_add_left hj _)
  · rw [List.getElem?_eq_none, List.getElem?_eq_none]
    · exact (List.length_take_le _ _).trans hj
    · exact (List.length_take_le _ _).trans hj

theorem loadFrom_congr {mem mem' : Memory} {addr : BitVec 64} {ty : Ty}
    (hbounds : SameBounds mem.length mem'.length addr.toNat ty.bytes)
    (hbytes : addr.toNat + ty.bytes ≤ mem.length → SameBytes mem mem' addr.toNat ty.bytes) :
    loadFrom mem' addr ty = loadFrom mem addr ty := by
  rcases Nat.lt_or_ge mem.length (addr.toNat + ty.bytes) with hlt | hle
  · have hlength := hbounds.outside hlt
    rw [loadFrom_of_lt hlt, loadFrom_of_lt (hlength ▸ hlt), outOfBounds, outOfBounds, hlength]
  · have hend := Memory.endOf_eq_some_iff.mpr ⟨rfl, hle⟩
    have hend' := Memory.endOf_eq_some_iff.mpr ⟨rfl, hbounds.inside.mpr hle⟩
    simp only [loadFrom, hend, hend', read_eq_of_sameBytes (hbytes hle)]

/-! ## One instruction -/

section

variable [RustCore] {func : Function} {inst : Inst} {s t : RunState}

omit [RustCore] in
theorem get_congr_registers (hregs : t.registers = s.registers) (v : Value) :
    t.get v = s.get v := by
  unfold RunState.get
  rw [hregs]

omit [RustCore] in
theorem getAll_congr_registers (hregs : t.registers = s.registers) (vs : List Value) :
    t.getAll vs = s.getAll vs := by
  unfold RunState.getAll
  rw [hregs]

theorem compute_sameBytes {data : InstructionData} (hregs : t.registers = s.registers)
    (hbounds : ∀ addr size, readOf func s inst data = some (addr, size) →
      SameBounds s.memory.length t.memory.length addr size)
    (hbytes : ∀ addr size, readOf func s inst data = some (addr, size) →
      addr + size ≤ s.memory.length → SameBytes s.memory t.memory addr size) :
    compute func t inst data = compute func s inst data := by
  have hget := get_congr_registers hregs
  unfold compute
  split
  case h_10 _ opcode x offset =>
    cases hx : s.registers x with
    | none =>
        have hnone : s.get x = .error (.undefinedValue x) := by simp only [RunState.get, hx]
        simp only [hget, hnone]
        rfl
    | some base =>
        have hread : readOf func s inst (.load opcode x offset) =
            some (accessAddr base offset, ((resultTy func inst 0).getD .I64).bytes) := by
          simp only [readOf, hx, Option.map_some]
        have hbounds' := hbounds _ _ hread
        have hbytes' := hbytes _ _ hread
        rw [← toNat_effectiveAddr] at hbounds' hbytes'
        simp only [hget, RunState.get_eq_ok hx]
        exact loadFrom_congr hbounds' hbytes'
  all_goals simp only [hget]

/-- The outcomes of an instruction are the same but for memory and trace. -/
structure SameOutcome (r r' : RunState × StepResult) : Prop where
  result : r'.2 = r.2
  registers : r'.1.registers = r.1.registers

omit [RustCore] in
theorem sameOutcome_branchTo (hregs : t.registers = s.registers) (dest : BlockCall)
    (line : String) : SameOutcome (branchTo s dest line) (branchTo t dest line) := by
  unfold branchTo
  rw [getAll_congr_registers hregs]
  cases s.getAll dest.values with
  | error e => exact ⟨rfl, hregs⟩
  | ok params =>
      refine ⟨rfl, ?_⟩
      rw [RunState.registers_log, RunState.registers_log, hregs]

theorem sameOutcome_computeStep {data : InstructionData} (hregs : t.registers = s.registers)
    (hcompute : compute func t inst data = compute func s inst data) :
    SameOutcome (computeStep func s inst data) (computeStep func t inst data) := by
  unfold computeStep
  rw [hcompute]
  cases compute func s inst data with
  | error e => exact ⟨rfl, hregs⟩
  | ok v =>
      refine ⟨rfl, ?_⟩
      rw [registers_bindResults, registers_bindResults, hregs]

theorem sameOutcome_callStep (hregs : t.registers = s.registers) (funcRef : FuncRef)
    (args : List Value) :
    SameOutcome (callStep func s inst funcRef args) (callStep func t inst funcRef args) := by
  have hargs := getAll_congr_registers hregs args
  cases h : s.getAll args with
  | error e =>
      simp only [callStep, hargs, h]
      exact ⟨rfl, hregs⟩
  | ok vals =>
      obtain ⟨line, hcall⟩ := callStep_of_ok func inst funcRef h
      obtain ⟨line', hcall'⟩ := callStep_of_ok func inst funcRef (hargs.trans h)
      rw [hcall, hcall', fillResults_eq, fillResults_eq, RunState.registers_log,
        RunState.registers_log, hregs]
      exact ⟨rfl, rfl⟩

/-- A store does the same, to the memory and otherwise. -/
theorem sameOutcome_store {opcode : Opcode} {x p : Value} {offset : BitVec 32}
    (hregs : t.registers = s.registers)
    (hbounds : ∀ addr size, accessOf func s inst (.store opcode x p offset) = some (addr, size) →
      SameBounds s.memory.length t.memory.length addr size) :
    SameOutcome (step func s inst (.store opcode x p offset))
        (step func t inst (.store opcode x p offset)) ∧
      writeOf t (.store opcode x p offset) = writeOf s (.store opcode x p offset) := by
  have hget := get_congr_registers hregs
  have hstep (state : RunState) : step func state inst (.store opcode x p offset) =
      storeStep func state inst opcode x p offset := rfl
  cases hx : s.registers x with
  | none =>
      have hnone : s.get x = .error (.undefinedValue x) := by simp only [RunState.get, hx]
      constructor
      · simp only [hstep, storeStep, hget, hnone]
        exact ⟨rfl, hregs⟩
      · simp only [writeOf, hregs, hx]
  | some val =>
      cases hp : s.registers p with
      | none =>
          have hnone : s.get p = .error (.undefinedValue p) := by simp only [RunState.get, hp]
          constructor
          · simp only [hstep, storeStep, hget, RunState.get_eq_ok hx, hnone]
            exact ⟨rfl, hregs⟩
          · simp only [writeOf, hregs, hx, hp]
      | some base =>
          have haccess : accessOf func s inst (.store opcode x p offset) =
              some (accessAddr base offset, val.ty.bytes) := by
            simp only [accessOf, hx, hp, Option.bind_eq_bind, Option.bind_some]
          have hx' : t.registers x = some val := hregs ▸ hx
          have hp' : t.registers p = some base := hregs ▸ hp
          obtain ⟨hinside, houtside⟩ := hbounds _ _ haccess
          constructor
          · rcases Nat.lt_or_ge s.memory.length (accessAddr base offset + val.ty.bytes) with
              hlt | hle
            · have hlength := houtside hlt
              rw [step_store_of_lt hx hp hlt, step_store_of_lt hx' hp' (hlength ▸ hlt), hlength]
              exact ⟨rfl, hregs⟩
            · rw [step_store_of_le hx hp hle, step_store_of_le hx' hp' (hinside.mpr hle)]
              refine ⟨rfl, ?_⟩
              rw [registers_bindResults, registers_bindResults, hregs]
          · simp only [writeOf, hregs, hx, hp, hinside]

/-- An instruction whose access has the same outcome, and the same bytes if it is a load, does
the same to registers and control, and writes the same. -/
theorem sameOutcome_step (data : InstructionData) (hregs : t.registers = s.registers)
    (hbounds : ∀ addr size, accessOf func s inst data = some (addr, size) →
      SameBounds s.memory.length t.memory.length addr size)
    (hbytes : ∀ addr size, readOf func s inst data = some (addr, size) →
      addr + size ≤ s.memory.length → SameBytes s.memory t.memory addr size) :
    SameOutcome (step func s inst data) (step func t inst data) ∧
      writeOf t data = writeOf s data := by
  have hread (h : accessOf func s inst data = readOf func s inst data) :=
    sameOutcome_computeStep hregs (compute_sameBytes hregs (h ▸ hbounds) hbytes)
  cases data with
  | store opcode x p offset => exact sameOutcome_store hregs hbounds
  | jump opcode dest => exact ⟨sameOutcome_branchTo hregs dest _, rfl⟩
  | brif opcode c thenDest elseDest =>
      refine ⟨?_, rfl⟩
      show SameOutcome (brifStep s c thenDest elseDest) (brifStep t c thenDest elseDest)
      unfold brifStep
      rw [get_congr_registers hregs]
      cases s.get c with
      | error e => exact ⟨rfl, hregs⟩
      | ok x => exact sameOutcome_branchTo hregs _ _
  | multiAry opcode args =>
      cases opcode
      case return_ =>
        refine ⟨?_, rfl⟩
        show SameOutcome (returnStep s args) (returnStep t args)
        unfold returnStep
        rw [getAll_congr_registers hregs]
        cases s.getAll args with
        | error e => exact ⟨rfl, hregs⟩
        | ok vals =>
            refine ⟨rfl, ?_⟩
            rw [RunState.registers_log, RunState.registers_log, hregs]
      all_goals exact ⟨hread rfl, rfl⟩
  | call opcode args funcRef => exact ⟨sameOutcome_callStep hregs funcRef args, rfl⟩
  | _ => exact ⟨hread rfl, rfl⟩

end

/-! ## Runs -/

/-- The simulator with another memory. -/
def Simulator.onMemory (sim : Simulator) (mem : Memory) : Simulator := { sim with memory := mem }

/-- The configurations are the same but for memory and trace. -/
structure SameConfig (config config' : Config) : Prop where
  status : config'.status = config.status
  registers : config'.state.registers = config.state.registers

/-- The runs end alike, after the same number of instructions. -/
structure SameExit (exit exit' : LoopExit) : Prop where
  returns : exit'.returns = exit.returns
  error : exit'.error = exit.error
  steps : exit'.steps = exit.steps
  registers : exit'.state.registers = exit.state.registers

section

variable [RustCore] {func : Function}

theorem sameConfig_next {config config' : Config} (h : SameConfig config config')
    (hbounds : ∀ addr size, nextAccess func config = some (addr, size) →
      SameBounds config.state.memory.length config'.state.memory.length addr size)
    (hbytes : ∀ addr size, nextRead func config = some (addr, size) →
      addr + size ≤ config.state.memory.length →
      SameBytes config.state.memory config'.state.memory addr size) :
    SameConfig ((machine func).next config) ((machine func).next config') ∧
      nextWrite func config' = nextWrite func config := by
  obtain ⟨hstatus, hregs⟩ := h
  unfold nextAccess at hbounds
  unfold nextRead at hbytes
  unfold nextWrite
  cases hp : config.status with
  | halted halt =>
      have hdone : (machine func).done config = some halt := by
        show done func config = _
        simp only [done, hp]
      have hdone' : (machine func).done config' = some halt := by
        show done func config' = _
        simp only [done, hstatus, hp]
      rw [next_of_done hdone, next_of_done hdone', hstatus, hp]
      exact ⟨⟨hstatus, hregs⟩, rfl⟩
  | running p =>
      rw [hp] at hstatus hbounds hbytes
      rw [hstatus]
      cases hinst : func.instAt p with
      | none =>
          have hdone {c : Config} (hc : c.status = .running p) :
              (machine func).done c = some (.ended [] (some noTerminator)) := by
            show done func c = _
            simp only [done, hc, hinst]
          rw [next_of_done (hdone hp), next_of_done (hdone hstatus)]
          exact ⟨⟨hstatus.trans hp.symm, hregs⟩, by simp only [hinst, Option.bind_none]⟩
      | some inst =>
          simp only [hinst, Option.bind_some] at hbounds hbytes ⊢
          obtain ⟨⟨hresult, hregs'⟩, hwrite⟩ :=
            sameOutcome_step (func.data inst) hregs hbounds hbytes
          rw [next_of_instAt hp hinst, next_of_instAt hstatus hinst, hresult]
          refine ⟨?_, hwrite⟩
          generalize step func config.state inst (func.data inst) = r at hresult hregs' ⊢
          generalize step func config'.state inst (func.data inst) = r' at hresult hregs' ⊢
          obtain ⟨state, result⟩ := r
          obtain ⟨state', result'⟩ := r'
          cases result with
          | jump target params =>
              refine ⟨rfl, ?_⟩
              show Env.insertAll _ params state'.registers = Env.insertAll _ params state.registers
              rw [hregs']
          | error e =>
              refine ⟨rfl, ?_⟩
              show (state'.logHalt e inst).registers = (state.logHalt e inst).registers
              rw [RunState.registers_logHalt, RunState.registers_logHalt, hregs']
          | _ => exact ⟨rfl, hregs'⟩

/-- Runs through the same configurations end alike. -/
theorem exists_sameExit {sim sim' : Simulator} {args : List SimValue}
    (hbudget : sim'.maxSteps = sim.maxSteps)
    (hsame : ∀ n ≤ sim.maxSteps,
      SameConfig (sim.configAfter func args n) (sim'.configAfter func args n)) :
    ∃ exit exit', sim.exec func args = some exit ∧ sim'.exec func args = some exit' ∧
      SameExit exit exit' := by
  have hdone (n : Nat) (hn : n ≤ sim.maxSteps) :
      (machine func).done ((machine func).after n (sim'.start func args)) =
        (machine func).done ((machine func).after n (sim.start func args)) := by
    show done func (sim'.configAfter func args n) = done func (sim.configAfter func args n)
    unfold done
    rw [(hsame n hn).status]
  rcases Machine.haltsAt_or_running (M := machine func) sim.maxSteps (sim.start func args) with
    ⟨k, hk, halt, hhalts⟩ | hrun
  · obtain ⟨returns, error, rfl, -⟩ := exists_ended_of_haltsAt hhalts
    have hhalts' : (machine func).HaltsAt (sim'.start func args) k (.ended returns error) := by
      refine ⟨fun j hj ↦ ?_, ?_⟩
      · rw [hdone j (hj.le.trans hk)]
        exact hhalts.1 j hj
      · rw [hdone k hk]
        exact hhalts.2
    exact ⟨_, _, exec_of_haltsAt hhalts hk, exec_of_haltsAt hhalts' (hbudget ▸ hk), rfl, rfl, rfl,
      (hsame k hk).registers⟩
  · have hrun' : (machine func).Running (sim.maxSteps + 1) (sim'.start func args) := by
      intro j hj
      rw [hdone j (Nat.le_of_lt_succ hj)]
      exact hrun j hj
    obtain ⟨exit, hexit, hstop⟩ := exec_of_running hrun
    obtain ⟨exit', hexit', hstop'⟩ := exec_of_running hrun'
    rw [← hbudget] at hexit'
    refine ⟨exit, exit', hexit, hexit', hstop'.returns.trans hstop.returns.symm,
      hstop'.error.trans hstop.error.symm, hstop'.steps.trans hstop.steps.symm, ?_⟩
    rw [hstop'.registers, hstop.registers]
    exact (hsame _ (Nat.le_refl _)).registers

omit [RustCore] in
theorem nextAccess_of_nextRead {config : Config} {access : Nat × Nat}
    (h : nextRead func config = some access) : nextAccess func config = some access := by
  unfold nextRead at h
  unfold nextAccess
  cases hp : config.status with
  | halted halt =>
      rw [hp] at h
      cases h
  | running p =>
      rw [hp] at h
      obtain ⟨inst, hinst, hread⟩ := Option.bind_eq_some_iff.mp h
      simp only [hinst, Option.bind_some]
      generalize func.data inst = data at hread
      cases data with
      | store opcode x p offset => cases hread
      | _ => exact hread

omit [RustCore] in
theorem le_of_nextWrite {config : Config} {w : Write Byte}
    (h : nextWrite func config = some w) :
    w.addr + w.data.length ≤ config.state.memory.length := by
  unfold nextWrite at h
  cases hp : config.status with
  | halted halt =>
      rw [hp] at h
      cases h
  | running p =>
      rw [hp] at h
      obtain ⟨inst, -, hwrite⟩ := Option.bind_eq_some_iff.mp h
      unfold writeOf at hwrite
      split at hwrite
      · split at hwrite
        · dsimp only at hwrite
          split at hwrite
          · rename_i hle
            cases hwrite
            rwa [SimValue.length_toBytes]
          · cases hwrite
        · cases hwrite
      · cases hwrite

/-- As long as the accesses of a run have the same outcome on another memory, and the bytes
it loads have been stored before or are the same there, the run on the other memory goes the
same way, and stores the same. -/
theorem sameConfig_configAfter (sim : Simulator) (mem : Memory) (args : List SimValue) {N : Nat}
    (hbounds : ∀ n < N, ∀ addr size,
      nextAccess func (sim.configAfter func args n) = some (addr, size) →
      SameBounds sim.memory.length mem.length addr size)
    (hbytes : ∀ n < N, ∀ addr size,
      nextRead func (sim.configAfter func args n) = some (addr, size) →
      ∀ i, addr ≤ i → i < addr + size →
        (latest (sim.storeLog func args n) i).isSome ∨ mem.bytes[i]? = sim.memory.bytes[i]?)
    {n : Nat} (hn : n ≤ N) :
    SameConfig (sim.configAfter func args n) ((sim.onMemory mem).configAfter func args n) ∧
      (sim.onMemory mem).storeLog func args n = sim.storeLog func args n := by
  induction n with
  | zero =>
      refine ⟨?_, rfl⟩
      show SameConfig (sim.start func args) ((sim.onMemory mem).start func args)
      unfold Simulator.start
      cases func.layout.entryBlock <;> exact ⟨rfl, rfl⟩
  | succ n ih =>
      obtain ⟨hsame, hlog⟩ := ih (Nat.le_of_succ_le hn)
      rw [Simulator.configAfter_succ, Simulator.configAfter_succ, Simulator.storeLog,
        Simulator.storeLog, hlog]
      have hlength := length_configAfter sim func args n
      have hlength' := length_configAfter (sim.onMemory mem) func args n
      have hnext := sameConfig_next hsame (by rw [hlength, hlength']; exact hbounds n hn) ?_
      · exact ⟨hnext.1, by rw [hnext.2]⟩
      · intro addr size hread hle i hi hi'
        rw [getElem?_configAfter, getElem?_configAfter, hlog]
        rw [hlength] at hle
        have hmem : i < sim.memory.bytes.length := Nat.lt_of_lt_of_le hi' hle
        have hmem' : i < mem.bytes.length := Nat.lt_of_lt_of_le hi'
          ((hbounds n hn addr size (nextAccess_of_nextRead hread)).inside.mpr hle)
        show byteAt mem _ i = _
        unfold byteAt
        rcases hbytes n hn addr size hread i hi hi' with hlatest | heq
        · obtain ⟨b, hb⟩ := Option.isSome_iff_exists.mp hlatest
          rw [List.getElem?_eq_getElem hmem, List.getElem?_eq_getElem hmem', hb]
          rfl
        · rw [heq]

/-- The writes of a run are within its memory. -/
theorem le_of_mem_storeLog (sim : Simulator) (args : List SimValue) (n : Nat) :
    ∀ w ∈ sim.storeLog func args n, w.addr + w.data.length ≤ sim.memory.length := by
  induction n with
  | zero => exact fun w hw ↦ absurd hw List.not_mem_nil
  | succ n ih =>
      intro w hw
      rcases List.mem_append.mp hw with hw | hw
      · exact ih w hw
      · rw [← length_configAfter sim func args n]
        exact le_of_nextWrite (Option.mem_toList.mp hw)

/-- Where the memories that two runs on the same way end with agree. -/
theorem exists_exits {sim : Simulator} {mem : Memory} {args : List SimValue}
    (hsame : ∀ n ≤ sim.maxSteps,
      SameConfig (sim.configAfter func args n) ((sim.onMemory mem).configAfter func args n) ∧
        (sim.onMemory mem).storeLog func args n = sim.storeLog func args n) :
    ∃ exit exit', sim.exec func args = some exit ∧ (sim.onMemory mem).exec func args = some exit' ∧
      SameExit exit exit' ∧
      (∀ i, exit.state.memory.bytes[i]? =
        byteAt sim.memory (sim.storeLog func args exit.steps) i) ∧
      ∀ i, exit'.state.memory.bytes[i]? = byteAt mem (sim.storeLog func args exit.steps) i := by
  obtain ⟨exit, exit', hexit, hexit', hsameExit⟩ : ∃ exit exit', sim.exec func args = some exit ∧
      (sim.onMemory mem).exec func args = some exit' ∧ SameExit exit exit' :=
    exists_sameExit rfl fun n hn ↦ (hsame n hn).1
  obtain ⟨hsteps, -, hmemory⟩ := exec_state hexit
  obtain ⟨-, -, hmemory'⟩ := exec_state hexit'
  refine ⟨exit, exit', hexit, hexit', hsameExit, fun i ↦ ?_, fun i ↦ ?_⟩
  · rw [hmemory, getElem?_configAfter]
  · rw [hmemory', hsameExit.steps, getElem?_configAfter, (hsame _ hsteps).2]
    rfl

/-- **Footprint.**  A run depends only on the bytes it loads before it stores them.  On a
memory of the same length that has these bytes, it is at the same point with the same registers
after each instruction, so that it executes the same ones; the function returns the same values
and ends with the same registers and the same error, after as many instructions; each byte of
the memory it ends with is the same where the run has stored, and untouched elsewhere. -/
theorem run_footprint (sim : Simulator) (func : Function) (args : List SimValue) {mem : Memory}
    (hlength : mem.length = sim.memory.length)
    (hbytes : ∀ n < sim.maxSteps, ∀ addr size,
      nextRead func (sim.configAfter func args n) = some (addr, size) →
      ∀ i, addr ≤ i → i < addr + size →
        (latest (sim.storeLog func args n) i).isSome ∨ mem.bytes[i]? = sim.memory.bytes[i]?) :
    ∃ exit exit', sim.exec func args = some exit ∧ (sim.onMemory mem).exec func args = some exit' ∧
      SameExit exit exit' ∧
      (∀ n ≤ exit.steps, SameConfig (sim.configAfter func args n)
        ((sim.onMemory mem).configAfter func args n)) ∧
      ∀ i, exit'.state.memory.bytes[i]? =
        if (latest (sim.storeLog func args exit.steps) i).isSome then exit.state.memory.bytes[i]?
        else mem.bytes[i]? := by
  have hbounds : ∀ n < sim.maxSteps, ∀ addr size,
      nextAccess func (sim.configAfter func args n) = some (addr, size) →
      SameBounds sim.memory.length mem.length addr size := by
    intro n _ addr size _
    rw [hlength]
    exact .refl _ _ _
  have hconfigs {n : Nat} := sameConfig_configAfter (n := n) sim mem args hbounds hbytes
  obtain ⟨exit, exit', hexit, hexit', hsame, hfirst, hsecond⟩ := exists_exits fun n hn ↦ hconfigs hn
  have hsteps : exit.steps ≤ sim.maxSteps := (exec_state hexit).1
  refine ⟨exit, exit', hexit, hexit', hsame, fun n hn ↦ (hconfigs (hn.trans hsteps)).1, fun i ↦ ?_⟩
  rw [hfirst, hsecond, byteAt, byteAt]
  cases hlatest : latest (sim.storeLog func args exit.steps) i with
  | none =>
      rw [if_neg (by simp)]
      simp
  | some b =>
      rw [Option.isSome_some, if_pos rfl]
      rcases Nat.lt_or_ge i mem.length with hi | hi
      · rw [List.getElem?_eq_getElem (show i < mem.bytes.length from hi),
          List.getElem?_eq_getElem
            (show i < sim.memory.bytes.length from Nat.lt_of_lt_of_eq hi hlength)]
        rfl
      · rw [List.getElem?_eq_none (show mem.bytes.length ≤ i from hi),
          List.getElem?_eq_none (show sim.memory.bytes.length ≤ i from hlength.ge.trans hi)]

/-- An access out of bounds stops the run. -/
theorem step_of_lt_access {state : RunState} {inst : Inst} {data : InstructionData}
    {addr size : Nat} (haccess : accessOf func state inst data = some (addr, size))
    (hlt : state.memory.length < addr + size) :
    step func state inst data = (state, .error (.outOfBounds addr size state.memory.length)) := by
  cases data with
  | store opcode x p offset =>
      obtain ⟨val, hx, haccess⟩ := Option.bind_eq_some_iff.mp haccess
      obtain ⟨base, hp, haccess⟩ := Option.bind_eq_some_iff.mp haccess
      cases haccess
      exact step_store_of_lt hx hp hlt
  | load opcode x offset =>
      obtain ⟨base, hx, haccess⟩ := Option.map_eq_some_iff.mp haccess
      cases haccess
      rw [← toNat_effectiveAddr] at hlt ⊢
      show computeStep func state inst (.load opcode x offset) = _
      rw [computeStep, compute_load hx, loadFrom_of_lt hlt]
      rfl
  | _ => cases haccess

/-- In a run without an access out of bounds every access is in bounds. -/
theorem access_le {sim : Simulator} {args : List SimValue} {exit : LoopExit}
    (hexit : sim.exec func args = some exit)
    (hinside : ∀ addr size memoryLen, exit.error ≠ some (.outOfBounds addr size memoryLen))
    {n : Nat} (hn : n < sim.maxSteps) {addr size : Nat}
    (haccess : nextAccess func (sim.configAfter func args n) = some (addr, size)) :
    addr + size ≤ sim.memory.length := by
  by_contra hnot
  have hlength := length_configAfter sim func args n
  unfold nextAccess at haccess
  cases hp : (sim.configAfter func args n).status with
  | halted halt =>
      rw [hp] at haccess
      cases haccess
  | running p =>
      rw [hp] at haccess
      obtain ⟨inst, hinst, haccess⟩ := Option.bind_eq_some_iff.mp haccess
      have hstep := step_of_lt_access haccess (by rw [hlength]; exact Nat.lt_of_not_le hnot)
      have hhalts : (machine func).HaltsAt (sim.start func args) (n + 1)
          (.ended [] (some (.outOfBounds addr size sim.memory.length))) := by
        refine ⟨Simulator.running_of_instAt hp hinst, ?_⟩
        show done func (sim.configAfter func args (n + 1)) = _
        rw [Simulator.configAfter_succ, next_of_instAt hp hinst, hstep, hlength]
        rfl
      have hexec : sim.exec func args = some _ := exec_of_haltsAt hhalts hn
      rw [hexec] at hexit
      cases hexit
      exact hinside _ _ _ rfl

/-- A run that does not access memory out of bounds goes the same way in a larger memory, and
stores the same. -/
theorem exists_exit_of_append {sim : Simulator} {args : List SimValue} {mem : Memory}
    {extra : List Byte} (hmem : mem.bytes = sim.memory.bytes ++ extra) {exit : LoopExit}
    (hexit : sim.exec func args = some exit)
    (hinside : ∀ addr size memoryLen, exit.error ≠ some (.outOfBounds addr size memoryLen)) :
    ∃ exit', (sim.onMemory mem).exec func args = some exit' ∧ SameExit exit exit' ∧
      (∀ i, exit.state.memory.bytes[i]? =
        byteAt sim.memory (sim.storeLog func args exit.steps) i) ∧
      ∀ i, exit'.state.memory.bytes[i]? = byteAt mem (sim.storeLog func args exit.steps) i := by
  have hle : sim.memory.length ≤ mem.length := by
    show _ ≤ mem.bytes.length
    rw [hmem, List.length_append]
    exact Nat.le_add_right _ _
  have hbounds : ∀ n < sim.maxSteps, ∀ addr size,
      nextAccess func (sim.configAfter func args n) = some (addr, size) →
      SameBounds sim.memory.length mem.length addr size := by
    intro n hn addr size haccess
    have hin := access_le hexit hinside hn haccess
    exact ⟨iff_of_true (hin.trans hle) hin, fun hlt ↦ absurd hin (Nat.not_le_of_lt hlt)⟩
  have hbytes : ∀ n < sim.maxSteps, ∀ addr size,
      nextRead func (sim.configAfter func args n) = some (addr, size) →
      ∀ i, addr ≤ i → i < addr + size →
        (latest (sim.storeLog func args n) i).isSome ∨
          mem.bytes[i]? = sim.memory.bytes[i]? := by
    intro n hn addr size hread i _ hi
    have hin := access_le hexit hinside hn (nextAccess_of_nextRead hread)
    rw [hmem, List.getElem?_append_left (Nat.lt_of_lt_of_le hi hin)]
    exact .inr rfl
  obtain ⟨exit₁, exit', hexit₁, hexit', hsame, hfirst, hsecond⟩ :=
    exists_exits fun n hn ↦ sameConfig_configAfter sim mem args hbounds hbytes hn
  cases hexit.symm.trans hexit₁
  exact ⟨exit', hexit', hsame, hfirst, hsecond⟩

/-- **Frame.**  A run that does not access memory out of bounds does the same in a larger
memory, and leaves what has been added as it is. -/
theorem run_append (sim : Simulator) (func : Function) (args : List SimValue) {mem : Memory}
    {extra : List Byte} (hmem : mem.bytes = sim.memory.bytes ++ extra) {exit : LoopExit}
    (hexit : sim.exec func args = some exit)
    (hinside : ∀ addr size memoryLen, exit.error ≠ some (.outOfBounds addr size memoryLen)) :
    ∃ exit', (sim.onMemory mem).exec func args = some exit' ∧ SameExit exit exit' ∧
      exit'.state.memory.bytes = exit.state.memory.bytes ++ extra := by
  obtain ⟨exit', hexit', hsame, hfirst, hsecond⟩ := exists_exit_of_append hmem hexit hinside
  refine ⟨exit', hexit', hsame, List.ext_getElem? fun i ↦ ?_⟩
  have hexitLength : exit.state.memory.bytes.length = sim.memory.bytes.length := by
    obtain ⟨-, -, hmemory⟩ := exec_state hexit
    rw [hmemory]
    exact length_configAfter sim func args exit.steps
  rw [hsecond, byteAt, hmem]
  rcases Nat.lt_or_ge i sim.memory.bytes.length with hi | hi
  · rw [List.getElem?_append_left hi, List.getElem?_append_left (hexitLength ▸ hi), hfirst, byteAt]
  · have hlatest : latest (sim.storeLog func args exit.steps) i = none :=
      latest_eq_none fun w hw ↦ (le_of_mem_storeLog sim args exit.steps w hw).trans hi
    rw [List.getElem?_append_right hi, List.getElem?_append_right (hexitLength ▸ hi), hexitLength,
      hlatest]
    simp

/-! ## A simulator that has been used -/

/-- `Simulator::run` together with what it leaves of the simulator: the memory is moved into the
result, and an empty one stays behind. -/
def Simulator.runMut (sim : Simulator) (func : Function) (args : List SimValue) :
    Option (SimResult × Simulator) :=
  (sim.run func args).map fun r ↦ (r, sim.onMemory .empty)

/-- Runs on one simulator, one after another. -/
def Simulator.runEach (sim : Simulator) : List (Function × List SimValue) → Option (List SimResult)
  | [] => some []
  | (func, args) :: calls => do
      let (r, sim) ← sim.runMut func args
      let rs ← sim.runEach calls
      some (r :: rs)

/-- The run that left `r` does not depend on the memory: whatever that is, the function ends the
same way, and does not touch it. -/
def Simulator.IgnoresMemory (sim : Simulator) (func : Function) (args : List SimValue)
    (r : SimResult) : Prop :=
  ∀ mem, ∃ r', (sim.onMemory mem).run func args = some r' ∧ r'.returns = r.returns ∧
    r'.error = r.error ∧ r'.registers = r.registers ∧ r'.memory.bytes = mem.bytes

/-- A run on an empty memory that does not access it does not depend on the memory. -/
theorem ignoresMemory_of_empty {sim : Simulator} {args : List SimValue} {r : SimResult}
    (hempty : sim.memory.bytes = []) (hrun : sim.run func args = some r)
    (hinside : ∀ addr size memoryLen, r.error ≠ some (.outOfBounds addr size memoryLen)) :
    sim.IgnoresMemory func args r := by
  obtain ⟨exit, hexit⟩ := exists_exec sim func args
  rw [run_of_exec hexit] at hrun
  cases hrun
  intro mem
  have hmem : mem.bytes = sim.memory.bytes ++ mem.bytes := by
    rw [hempty, List.nil_append]
  obtain ⟨exit', hexit', hsame, -, hsecond⟩ := exists_exit_of_append hmem hexit hinside
  refine ⟨_, run_of_exec hexit', hsame.returns, hsame.error, hsame.registers,
    List.ext_getElem? fun i ↦ ?_⟩
  have hlatest : latest (sim.storeLog func args exit.steps) i = none := by
    refine latest_eq_none fun w hw ↦ (le_of_mem_storeLog sim args exit.steps w hw).trans ?_
    rw [Memory.length, hempty]
    exact Nat.zero_le i
  show exit'.state.memory.bytes[i]? = _
  rw [hsecond, byteAt, hlatest]
  simp

/-- What is left to say of a run on a used simulator: it accesses memory, of which there is none,
or it does not depend on it. -/
structure OnUsed (sim : Simulator) (call : Function × List SimValue) (r : SimResult) : Prop where
  memory : r.memory.bytes = []
  ends : (∃ addr size memoryLen, r.error = some (.outOfBounds addr size memoryLen)) ∨
    sim.IgnoresMemory call.1 call.2 r

theorem onUsed_of_run {sim : Simulator} {call : Function × List SimValue} {r : SimResult}
    (hempty : sim.memory.bytes = []) (hrun : sim.run call.1 call.2 = some r) :
    OnUsed sim call r where
  memory := by
    obtain ⟨exit, hexit⟩ := exists_exec sim call.1 call.2
    obtain ⟨-, -, hmemory⟩ := exec_state hexit
    rw [run_of_exec hexit] at hrun
    cases hrun
    have hlength := length_configAfter sim call.1 call.2 exit.steps
    rw [← hmemory, Memory.length, Memory.length, hempty] at hlength
    exact List.eq_nil_of_length_eq_zero hlength
  ends := by
    by_cases herror : ∃ addr size memoryLen, r.error = some (.outOfBounds addr size memoryLen)
    · exact .inl herror
    · refine .inr (ignoresMemory_of_empty hempty hrun fun addr size memoryLen h ↦ ?_)
      exact herror ⟨addr, size, memoryLen, h⟩

theorem exists_run (sim : Simulator) (func : Function) (args : List SimValue) :
    ∃ r, sim.run func args = some r := by
  obtain ⟨exit, hexit⟩ := exists_exec sim func args
  exact ⟨_, run_of_exec hexit⟩

theorem runEach_cons {sim : Simulator} {args : List SimValue}
    {calls : List (Function × List SimValue)} {r : SimResult} {rs : List SimResult}
    (hrun : sim.run func args = some r) (hrest : (sim.onMemory .empty).runEach calls = some rs) :
    sim.runEach ((func, args) :: calls) = some (r :: rs) := by
  simp only [Simulator.runEach, Simulator.runMut, hrun, Option.map_some, Option.bind_eq_bind,
    Option.bind_some, hrest]

theorem runEach_used (sim : Simulator) (calls : List (Function × List SimValue)) :
    ∃ rs, (sim.onMemory .empty).runEach calls = some rs ∧ List.Forall₂ (OnUsed sim) calls rs := by
  induction calls with
  | nil => exact ⟨[], rfl, .nil⟩
  | cons call calls ih =>
      obtain ⟨r, hr⟩ := exists_run (sim.onMemory .empty) call.1 call.2
      obtain ⟨rs, hrs, hused⟩ := ih
      have hfirst : OnUsed (sim.onMemory .empty) call r := onUsed_of_run rfl hr
      exact ⟨r :: rs, runEach_cons hr hrs, .cons ⟨hfirst.memory, hfirst.ends⟩ hused⟩

/-- **A simulator can be used again for what needs no memory.**  Of any runs on one simulator,
one after another, the first has the memory it was made with, and all others none: each of them
is stopped by an access out of bounds, or gives the same values, registers and error as on a
new simulator with any memory, which it does not touch. -/
theorem runEach_spec (sim : Simulator) (func : Function) (args : List SimValue)
    (calls : List (Function × List SimValue)) :
    ∃ r rs, sim.runEach ((func, args) :: calls) = some (r :: rs) ∧ sim.run func args = some r ∧
      List.Forall₂ (OnUsed sim) calls rs := by
  obtain ⟨r, hr⟩ := exists_run sim func args
  obtain ⟨rs, hrs, hused⟩ := runEach_used sim calls
  exact ⟨r, rs, runEach_cons hr hrs, hr, hused⟩

end

/-! ## A store and a load -/

/-- An address that is stored at itself and loaded again:
```
block0(v0: i64):  store v0, v0;  v1 = load.i64 v0;  return v1
``` -/
def echo : Function :=
  .ofTables ⟨[.I64], [.I64]⟩
    [(.store .store ⟨0⟩ ⟨0⟩ 0, []), (.load .load ⟨0⟩ 0, [⟨1⟩]), (.multiAry .return_ [⟨1⟩], [])]
    [([⟨0⟩], [⟨0⟩, ⟨1⟩, ⟨2⟩])] [.I64, .I64] [] []

namespace Echo

/-- Eight bytes. -/
def bytes (b : Byte) : Memory := ⟨List.replicate 8 b, by rw [List.length_replicate]; decide⟩

/-- Two more. -/
def longer : Memory := ⟨List.replicate 8 0 ++ [1, 2], by decide⟩

/-- A simulator for the three instructions. -/
def sim : Simulator := (Simulator.withMemory (bytes 0)).withBudget 3

end Echo

section

local instance footprintFmt : RustCore := .blank

/-- The bytes loaded have been stored, so other bytes to begin with make no difference. -/
theorem run_footprint_echo : ∃ exit exit', Echo.sim.exec echo [.I64 0] = some exit ∧
    (Echo.sim.onMemory (Echo.bytes 255)).exec echo [.I64 0] = some exit' ∧
      SameExit exit exit' ∧
      (∀ n ≤ exit.steps, SameConfig (Echo.sim.configAfter echo [.I64 0] n)
        ((Echo.sim.onMemory (Echo.bytes 255)).configAfter echo [.I64 0] n)) ∧
      ∀ i, exit'.state.memory.bytes[i]? =
        if (latest (Echo.sim.storeLog echo [.I64 0] exit.steps) i).isSome then
          exit.state.memory.bytes[i]?
        else (Echo.bytes 255).bytes[i]? := by
  refine run_footprint Echo.sim echo [.I64 0] rfl ?_
  intro n hn addr size hread i hi hi'
  match n, hn with
  | 0, _ => cases hread
  | 2, _ => cases hread
  | 1, _ =>
      left
      have haccess : (0, 8) = (addr, size) := Option.some.inj hread
      cases haccess
      have hcover : ∀ i < 8, (latest (Echo.sim.storeLog echo [.I64 0] 1) i).isSome := by decide
      exact hcover i (by omega)

/-- Two more bytes of memory make no difference, and are left as they are. -/
theorem run_append_echo : ∃ exit exit', Echo.sim.exec echo [.I64 0] = some exit ∧
    (Echo.sim.onMemory Echo.longer).exec echo [.I64 0] = some exit' ∧
      SameExit exit exit' ∧ exit'.state.memory.bytes = exit.state.memory.bytes ++ [1, 2] := by
  obtain ⟨exit, hexit, herror⟩ :
      ∃ exit, Echo.sim.exec echo [.I64 0] = some exit ∧ exit.error = none := ⟨_, rfl, rfl⟩
  have hlonger : Echo.longer.bytes = Echo.sim.memory.bytes ++ [1, 2] := rfl
  obtain ⟨exit', happend⟩ := run_append Echo.sim echo [.I64 0] hlonger hexit
    fun addr size memoryLen h ↦ by rw [herror] at h; cases h
  exact ⟨exit, exit', hexit, happend⟩

end

end LowerIrUtils.Sim
