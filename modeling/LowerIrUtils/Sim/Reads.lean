import LowerIrUtils.Sim.Effect

/-!
# What an instruction reads

What an instruction reads is a matter of its format and of the registers: a `brif` reads
the arguments of the branch it takes only, and no operand is read after an unbound one.
`step` begins with these reads, so an instruction whose reads fail does nothing but
report the first operand that is unbound (`step_of_reads_error`).
-/

namespace LowerIrUtils.Sim

open Clif

/-- The operands `step` reads, in order, as long as all are bound. -/
def reads (registers : Registers) : InstructionData → List Value
  | .binary _ x y | .intCompare _ _ x y | .floatCompare _ _ x y | .store _ x y _ => [x, y]
  | .unary _ x | .load _ x _ | .loadNoOffset .bitcast x => [x]
  | .ternary .select c x y => [c, x, y]
  | .jump _ dest => dest.values
  | .brif _ c thenDest elseDest =>
      c :: (registers c).elim [] fun x ↦
        if decide (x.asI64 ≠ 0) then thenDest.values else elseDest.values
  | .multiAry .return_ args | .call _ args _ => args
  | _ => []

theorem reads_brif {registers : Registers} {opcode : Opcode} {c : Value}
    {thenDest elseDest : BlockCall} {x : SimValue} (hc : registers c = some x) :
    reads registers (.brif opcode c thenDest elseDest) =
      c :: if decide (x.asI64 ≠ 0) then thenDest.values else elseDest.values := by
  simp only [reads, hc, Option.elim_some]

/-! ## Reads that fail -/

section

variable {state : RunState} {v : Value} {vs : List Value} {e : SimError}

theorem RunState.get_of_eq_none (h : state.registers v = none) :
    state.get v = .error (.undefinedValue v) := by
  simp only [RunState.get, h]

/-- The first unbound value of a list is the one reported. -/
theorem RunState.getAll_eq_error {pre post : List Value}
    (hpre : ∀ u ∈ pre, (state.registers u).isSome) (hv : state.registers v = none) :
    state.getAll (pre ++ v :: post) = .error (.undefinedValue v) := by
  have hlookup : state.registers.lookupAll (pre ++ v :: post) = .error v :=
    Env.lookupAll_eq_error_iff.mpr ⟨pre, post, rfl, hpre, hv⟩
  rw [RunState.getAll, hlookup]
  rfl

/-- A list fails at its first value, or that one is bound and the others fail. -/
theorem RunState.getAll_cons_error (h : state.getAll (v :: vs) = .error e) :
    state.get v = .error e ∨ ∃ x, state.registers v = some x ∧ state.getAll vs = .error e := by
  unfold RunState.getAll at h ⊢
  cases hv : state.registers v with
  | none =>
      rw [Env.lookupAll_cons_of_none hv] at h
      rw [RunState.get_of_eq_none hv]
      cases h
      exact .inl rfl
  | some x =>
      rw [Env.lookupAll_cons_of_some hv] at h
      refine .inr ⟨x, rfl, ?_⟩
      cases hvs : state.registers.lookupAll vs with
      | error u => rw [hvs] at h; exact h
      | ok xs => rw [hvs] at h; cases h

/-- What begins with the reads of a list that fails, fails. -/
theorem get_bind_of_getAll_error {α : Type} {f : SimValue → Except SimError α}
    (h : state.getAll (v :: vs) = .error e)
    (hrest : ∀ x, state.getAll vs = .error e → f x = .error e) :
    (state.get v >>= f) = .error e := by
  rcases RunState.getAll_cons_error h with hv | ⟨x, hx, hvs⟩
  · rw [hv]
    rfl
  · rw [RunState.get_eq_ok hx]
    exact hrest x hvs

/-- Reading nothing does not fail. -/
theorem RunState.getAll_nil_elim {P : Prop} (h : state.getAll [] = .error e) : P := by
  cases h

theorem get_bind_of_getAll_one_error {α : Type} {f : SimValue → Except SimError α}
    (h : state.getAll [v] = .error e) : (state.get v >>= f) = .error e :=
  get_bind_of_getAll_error h fun _ hnil ↦ RunState.getAll_nil_elim hnil

theorem get_bind_of_getAll_two_error {α : Type} {f : SimValue → SimValue → Except SimError α}
    {w : Value} (h : state.getAll [v, w] = .error e) :
    (state.get v >>= fun x ↦ state.get w >>= f x) = .error e :=
  get_bind_of_getAll_error h fun _ hw ↦ get_bind_of_getAll_one_error hw

end

/-! ## Instructions whose reads fail -/

section

variable {func : Function} {state : RunState} {inst : Inst} {e : SimError}

theorem branchTo_of_getAll_error {dest : BlockCall} (h : state.getAll dest.values = .error e)
    (line : String) : branchTo state dest line = (state, .error e) := by
  rw [branchTo, h]

theorem brifStep_of_reads_error (opcode : Opcode) {c : Value} {thenDest elseDest : BlockCall}
    (h : state.getAll (reads state.registers (.brif opcode c thenDest elseDest)) = .error e) :
    brifStep state c thenDest elseDest = (state, .error e) := by
  unfold brifStep
  rcases RunState.getAll_cons_error h with hc | ⟨x, hx, hvalues⟩
  · rw [hc]
  · rw [hx, Option.elim_some] at hvalues
    simp only [RunState.get_eq_ok hx]
    generalize decide (x.asI64 ≠ 0) = cond at hvalues ⊢
    cases cond with
    | true => exact branchTo_of_getAll_error hvalues _
    | false => exact branchTo_of_getAll_error hvalues _

variable [RustCore]

theorem compute_of_reads_error {data : InstructionData}
    (h : state.getAll (reads state.registers data) = .error e)
    (hstore : ∀ opcode x p offset, data ≠ .store opcode x p offset)
    (hcontrol : data.destinations = [])
    (hargs : ∀ opcode args funcRef,
      data ≠ .multiAry opcode args ∧ data ≠ .call opcode args funcRef) :
    compute func state inst data = .error e := by
  cases data with
  | store opcode x p offset => exact absurd rfl (hstore _ _ _ _)
  | jump opcode dest => cases hcontrol
  | brif opcode c thenDest elseDest => cases hcontrol
  | multiAry opcode args => exact absurd rfl (hargs opcode args ⟨0⟩).1
  | call opcode args funcRef => exact absurd rfl (hargs opcode args funcRef).2
  | binary opcode x y => exact get_bind_of_getAll_two_error h
  | unary opcode x => exact get_bind_of_getAll_one_error h
  | loadNoOffset opcode x =>
      cases opcode
      case bitcast => exact get_bind_of_getAll_one_error h
      all_goals exact RunState.getAll_nil_elim h
  | intCompare opcode cond x y => exact get_bind_of_getAll_two_error h
  | floatCompare opcode cond x y => exact get_bind_of_getAll_two_error h
  | ternary opcode c x y =>
      cases opcode
      case select =>
        exact get_bind_of_getAll_error h fun _ hrest ↦ get_bind_of_getAll_two_error hrest
      all_goals exact RunState.getAll_nil_elim h
  | load opcode x offset => exact get_bind_of_getAll_one_error h
  | _ => exact RunState.getAll_nil_elim h

theorem storeStep_of_getAll_error {opcode : Opcode} {x p : Value} {offset : BitVec 32}
    (h : state.getAll [x, p] = .error e) :
    storeStep func state inst opcode x p offset = (state, .error e) := by
  unfold storeStep
  rcases RunState.getAll_cons_error h with hx | ⟨val, hx, hp⟩
  · rw [hx]
  · rcases RunState.getAll_cons_error hp with hp | ⟨-, -, hnil⟩
    · simp only [RunState.get_eq_ok hx, hp]
    · exact RunState.getAll_nil_elim hnil

/-- An instruction whose reads fail reports the error of the reads and changes nothing. -/
theorem step_of_reads_error {data : InstructionData}
    (h : state.getAll (reads state.registers data) = .error e) :
    step func state inst data = (state, .error e) := by
  have hcompute (hc : compute func state inst data = .error e) :
      computeStep func state inst data = (state, .error e) := by
    rw [computeStep, hc]
  cases data with
  | store opcode x p offset => exact storeStep_of_getAll_error h
  | jump opcode dest => exact branchTo_of_getAll_error h _
  | brif opcode c thenDest elseDest => exact brifStep_of_reads_error opcode h
  | multiAry opcode args =>
      cases opcode
      case return_ =>
        have hargs : state.getAll args = .error e := h
        have hstep : step func state inst (.multiAry .return_ args) = returnStep state args := rfl
        rw [hstep, returnStep, hargs]
      all_goals exact RunState.getAll_nil_elim h
  | call opcode args funcRef =>
      have hargs : state.getAll args = .error e := h
      have hstep : step func state inst (.call opcode args funcRef) =
          callStep func state inst funcRef args := rfl
      rw [hstep, callStep, hargs]
  | _ =>
      exact hcompute (compute_of_reads_error h (by rintro _ _ _ _ ⟨⟩) rfl
        fun _ _ _ ↦ ⟨by rintro ⟨⟩, by rintro ⟨⟩⟩)

end

end LowerIrUtils.Sim
