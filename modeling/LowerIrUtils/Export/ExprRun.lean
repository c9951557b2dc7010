import LowerIrUtils.Export.Defined
import LowerIrUtils.Export.Expr
import LowerIrUtils.Sim.ReferenceRun

/-!
# Running expressions

The two properties `tests/sim_proptest.rs` tests, for every expression and all inputs: the
function built around an expression is run by the simulator to the value of the expression, by
the convention for divisions, and without divisions that is what the JIT computes.

Both machines, the simulator and the reference one, come through the instructions of an
expression in the same way.  `Runs` says what a machine has to do for that with each of the
instructions `build` emits, and `ends_build` is the induction over the expression.
-/

namespace LowerIrUtils.Export

open Clif Sim Reference

/-! ## Instructions -/

/-- `Computes div env data ty o`: on operands `env` the instruction has a result of type `ty`,
the integer in `o`, or it traps. -/
inductive Computes (div : Divide) (env : BitEnv) :
    InstructionData → (ty : Ty) → Option (BitVec ty.bits) → Prop
  | iconst (imm : BitVec 64) : Computes div env (.unaryImm .iconst imm) .I64 (some imm)
  | binary {op : BinOp} {x y : Value} {a b : BitVec 64} (hx : env x = some ⟨.I64, a⟩)
      (hy : env y = some ⟨.I64, b⟩) :
      Computes div env (.binary op.opcode x y) .I64 (op.eval div a b)
  | ineg {x : Value} {a : BitVec 64} (hx : env x = some ⟨.I64, a⟩) :
      Computes div env (.unary .ineg x) .I64 (some (-a))
  | bnot {x : Value} {a : BitVec 64} (hx : env x = some ⟨.I64, a⟩) :
      Computes div env (.unary .bnot x) .I64 (some (~~~a))
  | icmp {cond : IntCC} {x y : Value} {a b : BitVec 64} (hx : env x = some ⟨.I64, a⟩)
      (hy : env y = some ⟨.I64, b⟩) :
      Computes div env (.intCompare .icmp cond x y) .I8
        (some (if cond.holds a b then 1 else 0 : BitVec 8))
  | uextend {x : Value} {a : BitVec 8} (hx : env x = some ⟨.I8, a⟩) :
      Computes div env (.unary .uextend x) .I64 (some (a.setWidth 64))
  | select {c x y : Value} {i a b : BitVec 64} (hc : env c = some ⟨.I64, i⟩)
      (hx : env x = some ⟨.I64, a⟩) (hy : env y = some ⟨.I64, b⟩) :
      Computes div env (.ternary .select c x y) .I64 (some (if i ≠ 0 then a else b))

/-! ## Machines -/

section

variable {σ ρ : Type} {M : Machine σ ρ} {func : Function} {b : Block} {div : Divide}
  {At : Nat → BitEnv → σ → Prop} {Trap : σ → Prop}

/-- The machine executes the instructions of an expression in the block `b`.  It is at a place
of the block with some environment, or it has trapped. -/
structure Runs (M : Machine σ ρ) (func : Function) (b : Block) (div : Divide)
    (At : Nat → BitEnv → σ → Prop) (Trap : σ → Prop) : Prop where
  next : ∀ {bcx : TypedBuilder} {data : InstructionData} {ty : Ty} {o : Option (BitVec ty.bits)}
    {env : BitEnv} {s : σ}, (bcx.insertOne data ty).1.Finishes func b →
    At bcx.blockInsts.length env s → Computes div env data ty o →
    o.elim (Trap (M.next s)) fun x ↦
      At (bcx.blockInsts.length + 1) (env.insert ⟨bcx.numValues⟩ ⟨ty, x⟩) (M.next s)
  trapped : ∀ s, Trap s → Trap (M.next s)

/-- Where the machine is when the value of `r`, which is built from `bcx`, is computed: at the
next instruction, with the value bound and the values of `bcx` as they were. -/
def Ends (At : Nat → BitEnv → σ → Prop) (Trap : σ → Prop) (bcx : TypedBuilder)
    (r : TypedBuilder × Value) (env : BitEnv) (ty : Ty) (s : σ) : Option (BitVec ty.bits) → Prop
  | some x => ∃ env', At r.1.blockInsts.length env' s ∧ env' r.2 = some ⟨ty, x⟩ ∧
      ∀ v : Value, v.index < bcx.numValues → env' v = env v
  | none => Trap s

variable {bcx : TypedBuilder} {r r' : TypedBuilder × Value} {env : BitEnv} {ty ty' : Ty} {s : σ}
  {x y : Value} {a c : BitVec 64}

namespace Runs

theorem after_trapped (h : Runs M func b div At Trap) (hs : Trap s) (n : Nat) :
    Trap (M.after n s) := by
  induction n with
  | zero => exact hs
  | succ n ih =>
      rw [Machine.after_succ']
      exact h.trapped _ ih

/-- Going on from a value. -/
theorem sequel {n m : Nat} {x : BitVec ty.bits} {o : Option (BitVec ty'.bits)}
    (h : Ends At Trap bcx r env ty (M.after n s) (some x)) (hle : bcx.numValues ≤ r.1.numValues)
    (hnext : ∀ env', At r.1.blockInsts.length env' (M.after n s) → env' r.2 = some ⟨ty, x⟩ →
      (∀ v : Value, v.index < bcx.numValues → env' v = env v) →
      Ends At Trap r.1 r' env' ty' (M.after m (M.after n s)) o) :
    Ends At Trap bcx r' env ty' (M.after (n + m) s) o := by
  obtain ⟨env', hat, hx, hframe⟩ := h
  have hends := hnext env' hat hx hframe
  rw [Machine.after_add]
  cases o with
  | none => exact hends
  | some z =>
      obtain ⟨env'', hat', hz, hframe'⟩ := hends
      refine ⟨env'', hat', hz, fun v hv ↦ ?_⟩
      rw [hframe' v (Nat.lt_of_lt_of_le hv hle), hframe v hv]

/-- One value after another, if there is the one. -/
theorem bind (hruns : Runs M func b div At Trap) {n m : Nat} {o : Option (BitVec ty.bits)}
    {f : BitVec ty.bits → Option (BitVec ty'.bits)}
    (h : Ends At Trap bcx r env ty (M.after n s) o) (hle : bcx.numValues ≤ r.1.numValues)
    (hnext : ∀ x env', At r.1.blockInsts.length env' (M.after n s) → env' r.2 = some ⟨ty, x⟩ →
      (∀ v : Value, v.index < bcx.numValues → env' v = env v) →
      Ends At Trap r.1 r' env' ty' (M.after m (M.after n s)) (f x)) :
    Ends At Trap bcx r' env ty' (M.after (n + m) s) (o.bind f) := by
  cases o with
  | none =>
      rw [Machine.after_add]
      exact hruns.after_trapped h m
  | some x => exact sequel h hle (hnext x)

variable (h : Runs M func b div At Trap)
include h

theorem insertOne {data : InstructionData} {o : Option (BitVec ty.bits)}
    (hfin : (bcx.insertOne data ty).1.Finishes func b) (hat : At bcx.blockInsts.length env s)
    (hcomputes : Computes div env data ty o) :
    Ends At Trap bcx (bcx.insertOne data ty) env ty (M.after 1 s) o := by
  have hnext := h.next hfin hat hcomputes
  cases o with
  | none => exact hnext
  | some x =>
      refine ⟨_, ?_, Env.insert_same _ _ _, fun v hv ↦ Env.insert_of_ne _ _ ?_⟩
      · rw [TypedBuilder.blockInsts_insertOne, List.length_append]
        exact hnext
      · rintro rfl
        exact Nat.lt_irrefl _ hv

theorem iconst {imm : BitVec 64} (hfin : (bcx.iconst .I64 imm).1.Finishes func b)
    (hat : At bcx.blockInsts.length env s) :
    Ends At Trap bcx (bcx.iconst .I64 imm) env .I64 (M.after 1 s) (some imm) := by
  have hmask : maskToWidth imm Ty.I64.bits = imm :=
    (BitVec.setWidth_eq _).trans (BitVec.setWidth_eq imm)
  rw [TypedBuilder.iconst, hmask] at hfin ⊢
  exact h.insertOne hfin hat (.iconst imm)

theorem insBinary {op : BinOp} (hx : Has bcx x .I64)
    (hfin : (bcx.insBinary op.opcode x y).1.Finishes func b) (hat : At bcx.blockInsts.length env s)
    (ha : env x = some ⟨.I64, a⟩) (hc : env y = some ⟨.I64, c⟩) :
    Ends At Trap bcx (bcx.insBinary op.opcode x y) env .I64 (M.after 1 s) (op.eval div a c) := by
  rw [TypedBuilder.insBinary, hx.type] at hfin ⊢
  exact h.insertOne hfin hat (.binary ha hc)

theorem insBinaryImmS (op : BinOp) {imm : BitVec 64} (hx : Has bcx x .I64)
    (hfin : (bcx.insBinaryImmS op.opcode x imm).1.Finishes func b)
    (hat : At bcx.blockInsts.length env s) (ha : env x = some ⟨.I64, a⟩) :
    Ends At Trap bcx (bcx.insBinaryImmS op.opcode x imm) env .I64 (M.after 2 s)
      (op.eval div a imm) := by
  have himm : Yields ⟨[], []⟩ bcx (bcx.iconst .I64 imm) .I64 := yields_iconst _ _ rfl imm
  rw [TypedBuilder.insBinaryImmS, hx.type] at hfin ⊢
  have hconst := h.iconst (hfin.of_extends (TypedBuilder.extends_insert _ _ _)) hat
  refine sequel (m := 1) hconst himm.builds.extends.numValues fun env' hat' hz hframe ↦ ?_
  refine h.insBinary (hx.of_yields himm) hfin hat' ?_ hz
  rw [hframe x hx.known, ha]

theorem ineg (hx : Has bcx x .I64) (hfin : (bcx.insUnary .ineg x).1.Finishes func b)
    (hat : At bcx.blockInsts.length env s) (ha : env x = some ⟨.I64, a⟩) :
    Ends At Trap bcx (bcx.insUnary .ineg x) env .I64 (M.after 1 s) (some (-a)) := by
  rw [TypedBuilder.insUnary, hx.type] at hfin ⊢
  exact h.insertOne hfin hat (.ineg ha)

theorem bnot (hx : Has bcx x .I64) (hfin : (bcx.insUnary .bnot x).1.Finishes func b)
    (hat : At bcx.blockInsts.length env s) (ha : env x = some ⟨.I64, a⟩) :
    Ends At Trap bcx (bcx.insUnary .bnot x) env .I64 (M.after 1 s) (some (~~~a)) := by
  rw [TypedBuilder.insUnary, hx.type] at hfin ⊢
  exact h.insertOne hfin hat (.bnot ha)

/-- A comparison, and the extension of what it gives. -/
theorem icmp {cond : IntCC} (hx : Has bcx x .I64) (hy : Has bcx y .I64)
    (hfin : ((bcx.icmp cond x y).1.uextend .I64 (bcx.icmp cond x y).2).1.Finishes func b)
    (hat : At bcx.blockInsts.length env s) (ha : env x = some ⟨.I64, a⟩)
    (hc : env y = some ⟨.I64, c⟩) :
    Ends At Trap bcx ((bcx.icmp cond x y).1.uextend .I64 (bcx.icmp cond x y).2) env .I64
      (M.after 2 s) (some (if cond.holds a c then 1 else 0 : BitVec 64)) := by
  have hext : (if cond.holds a c then 1 else 0 : BitVec 64) =
      (if cond.holds a c then 1 else 0 : BitVec 8).setWidth 64 := by
    split <;> rfl
  have hcmp := h.insertOne (hfin.of_extends (TypedBuilder.extends_insert _ _ _)) hat (.icmp ha hc)
  have hle := (yields_icmp ⟨[], []⟩ cond rfl hx hy).builds.extends.numValues
  rw [hext]
  refine sequel (m := 1) hcmp hle fun env' hat' hz _ ↦ ?_
  exact h.insertOne hfin hat' (.uextend hz)

theorem select {v : Value} {i : BitVec 64} (hx : Has bcx x .I64)
    (hfin : (bcx.select v x y).1.Finishes func b) (hat : At bcx.blockInsts.length env s)
    (hi : env v = some ⟨.I64, i⟩) (ha : env x = some ⟨.I64, a⟩) (hc : env y = some ⟨.I64, c⟩) :
    Ends At Trap bcx (bcx.select v x y) env .I64 (M.after 1 s)
      (some (if i ≠ 0 then a else c)) := by
  rw [TypedBuilder.select, hx.type] at hfin ⊢
  exact h.insertOne hfin hat (.select hi ha hc)

end Runs

/-! ## Expressions -/

/-- The parameters hold the arguments. -/
def HoldsArgs (env : BitEnv) (params : List Value) (args : List (BitVec 64)) : Prop :=
  params.map env = args.map fun a ↦ some ⟨.I64, a⟩

theorem HoldsArgs.congr {params : List Value} {args : List (BitVec 64)} {env' : BitEnv}
    (h : HoldsArgs env params args) (hparams : HasParams bcx params)
    (hframe : ∀ v : Value, v.index < bcx.numValues → env' v = env v) :
    HoldsArgs env' params args := by
  rw [HoldsArgs, ← h]
  exact List.map_congr_left fun v hv ↦ hframe v (hparams.has v hv).known

/-- The parameter that is taken holds the argument. -/
theorem HoldsArgs.getElem? {params : List Value} {args : List (BitVec 64)}
    (h : HoldsArgs env params args) {i : Nat} {v : Value}
    (hv : params[i % params.length]? = some v) :
    ∃ x, args[i % args.length]? = some x ∧ env v = some ⟨.I64, x⟩ := by
  have hlength : params.length = args.length := by
    simpa only [List.length_map] using congrArg List.length h
  have hget := congrArg (·[i % params.length]?) h
  simp only [List.getElem?_map, hv, Option.map_some] at hget
  rw [hlength] at hget
  cases hx : args[i % args.length]? with
  | none =>
      rw [hx] at hget
      cases hget
  | some x =>
      rw [hx] at hget
      exact ⟨x, rfl, Option.some.inj hget⟩

/-- **Lowering expressions.**  A machine that executes the instructions of expressions comes
from the first instruction of an expression to the one after the last, with the value of the
expression. -/
theorem ends_build (hruns : Runs M func b div At Trap) {params : List Value}
    {args : List (BitVec 64)} (e : Expr) {bcx : TypedBuilder} {env : BitEnv} {s : σ}
    (hparams : HasParams bcx params) (hfin : (e.build params bcx).1.Finishes func b)
    (hat : At bcx.blockInsts.length env s) (hargs : HoldsArgs env params args) :
    Ends At Trap bcx (e.build params bcx) env .I64 (M.after e.numInsts s) (e.eval div args) := by
  have hyields (e : Expr) {bcx : TypedBuilder} (h : HasParams bcx params) :
      Yields ⟨[], []⟩ bcx (e.build params bcx) .I64 := yields_build _ e h
  have hle (e : Expr) {bcx : TypedBuilder} (h : HasParams bcx params) :=
    (hyields e h).builds.extends.numValues
  induction e generalizing bcx env s with
  | param i =>
      obtain ⟨v, hv, -⟩ := hparams.exists_getElem? i
      obtain ⟨x, hx, henv⟩ := hargs.getElem? hv
      rw [Expr.eval, hx, Expr.build, hv]
      exact ⟨env, hat, henv, fun _ _ ↦ rfl⟩
  | const c => exact hruns.iconst hfin hat
  | bin op a b iha ihb =>
      have ha := hyields a hparams
      have hparams₁ := hparams.of_yields ha
      have hb := hyields b hparams₁
      have hfin₂ := hfin.of_extends (TypedBuilder.extends_insert _ _ _)
      have hfin₁ := hfin₂.of_extends hb.builds.extends
      refine hruns.bind (iha hparams hfin₁ hat hargs) (hle a hparams)
        fun x env₁ hat₁ hx hframe₁ ↦ ?_
      have hargs₁ := hargs.congr hparams hframe₁
      refine hruns.bind (ihb hparams₁ hfin₂ hat₁ hargs₁) (hle b hparams₁)
        fun y env₂ hat₂ hy hframe₂ ↦ ?_
      refine hruns.insBinary (ha.has.of_yields hb) hfin hat₂ ?_ hy
      rw [hframe₂ _ ha.has.known, hx]
  | addImm a imm ih =>
      have ha := hyields a hparams
      have hfin₁ := hfin.of_extends
        ((TypedBuilder.extends_insert _ _ _).trans (TypedBuilder.extends_insert _ _ _))
      exact hruns.bind (ih hparams hfin₁ hat hargs) (hle a hparams)
        fun x env₁ hat₁ hx _ ↦ hruns.insBinaryImmS .add ha.has hfin hat₁ hx
  | mulImm a imm ih =>
      have ha := hyields a hparams
      have hfin₁ := hfin.of_extends
        ((TypedBuilder.extends_insert _ _ _).trans (TypedBuilder.extends_insert _ _ _))
      exact hruns.bind (ih hparams hfin₁ hat hargs) (hle a hparams)
        fun x env₁ hat₁ hx _ ↦ hruns.insBinaryImmS .mul ha.has hfin hat₁ hx
  | neg a ih =>
      have ha := hyields a hparams
      have hfin₁ := hfin.of_extends (TypedBuilder.extends_insert _ _ _)
      exact hruns.bind (ih hparams hfin₁ hat hargs) (hle a hparams)
        fun x env₁ hat₁ hx _ ↦ hruns.ineg ha.has hfin hat₁ hx
  | bnot a ih =>
      have ha := hyields a hparams
      have hfin₁ := hfin.of_extends (TypedBuilder.extends_insert _ _ _)
      exact hruns.bind (ih hparams hfin₁ hat hargs) (hle a hparams)
        fun x env₁ hat₁ hx _ ↦ hruns.bnot ha.has hfin hat₁ hx
  | cmp cc a b iha ihb =>
      have ha := hyields a hparams
      have hparams₁ := hparams.of_yields ha
      have hb := hyields b hparams₁
      have hfin₂ := hfin.of_extends
        ((TypedBuilder.extends_insert _ _ _).trans (TypedBuilder.extends_insert _ _ _))
      have hfin₁ := hfin₂.of_extends hb.builds.extends
      refine hruns.bind (iha hparams hfin₁ hat hargs) (hle a hparams)
        fun x env₁ hat₁ hx hframe₁ ↦ ?_
      have hargs₁ := hargs.congr hparams hframe₁
      refine hruns.bind (ihb hparams₁ hfin₂ hat₁ hargs₁) (hle b hparams₁)
        fun y env₂ hat₂ hy hframe₂ ↦ ?_
      refine hruns.icmp (ha.has.of_yields hb) hb.has hfin hat₂ ?_ hy
      rw [hframe₂ _ ha.has.known, hx]
  | select c a b ihc iha ihb =>
      have hc := hyields c hparams
      have hparams₁ := hparams.of_yields hc
      have ha := hyields a hparams₁
      have hparams₂ := hparams₁.of_yields ha
      have hb := hyields b hparams₂
      have hfin₃ := hfin.of_extends (TypedBuilder.extends_insert _ _ _)
      have hfin₂ := hfin₃.of_extends hb.builds.extends
      have hfin₁ := hfin₂.of_extends ha.builds.extends
      refine hruns.bind (ihc hparams hfin₁ hat hargs) (hle c hparams)
        fun i env₁ hat₁ hi hframe₁ ↦ ?_
      have hargs₁ := hargs.congr hparams hframe₁
      refine hruns.bind (iha hparams₁ hfin₂ hat₁ hargs₁) (hle a hparams₁)
        fun x env₂ hat₂ hx hframe₂ ↦ ?_
      have hargs₂ := hargs₁.congr hparams₁ hframe₂
      refine hruns.bind (ihb hparams₂ hfin₃ hat₂ hargs₂) (hle b hparams₂)
        fun y env₃ hat₃ hy hframe₃ ↦ ?_
      refine hruns.select (ha.has.of_yields hb) hfin hat₃ ?_ ?_ hy
      · rw [hframe₃ _ (hc.has.of_yields ha).known, hframe₂ _ hc.has.known, hi]
      · rw [hframe₃ _ ha.has.known, hx]

end

/-! ## The simulator -/

section

variable [RustCore] {func : Function} {b : Block}

/-- The simulator is at a place of the block, with these bits in its registers and this
memory. -/
def SimAt (b : Block) (mem : Memory) (n : Nat) (env : BitEnv) (config : Sim.Config) : Prop :=
  config.status = .running ⟨b, n⟩ ∧ bitEnv config.state.registers = env ∧
    config.state.memory = mem

omit [RustCore] in
theorem registers_of_bitEnv {registers : Registers} {v : Value} {x : SimValue}
    (h : bitEnv registers v = some x.toBits) : registers v = some x := by
  have hmap : (registers v).map SimValue.toBits = some x.toBits := h
  obtain ⟨y, hy, hbits⟩ := Option.map_eq_some_iff.mp hmap
  rw [hy, SimValue.toBits_injective hbits]

/-- `apply_binary` follows the convention. -/
theorem exists_applyBinary_eval (op : BinOp) (x y : BitVec 64) :
    ∃ z, op.eval divide x y = some z ∧ applyBinary op.opcode (.I64 x) (.I64 y) = .ok (.I64 z) := by
  have hop : op.opcode.isIntBinary := by cases op <;> rfl
  obtain ⟨r, hr⟩ := exists_applyInt hop (x.signExtend 64) (y.signExtend 64) 64
  have hraw : applyBinary op.opcode (.I64 x) (.I64 y) = .ok (.I64 r) := by
    rw [BitVec.signExtend_eq, BitVec.signExtend_eq] at hr
    exact congrArg (Except.map SimValue.I64) hr
  have hdiv (hdivision : op.opcode.isDivision) : divide op.opcode x y = some r := by
    obtain ⟨r', hr', hiff⟩ := divide_setWidth .w64 hdivision x y
    cases hr.symm.trans hr'
    rw [hiff.mpr fun h ↦ h.2.1 rfl, BitVec.setWidth_eq]
  have hbinary (href : op.opcode.isReference) : Reference.binary op.opcode x y = some r := by
    rw [binary_setWidth .w64 hop href hr, BitVec.setWidth_eq]
  refine ⟨r, ?_, hraw⟩
  cases op with
  | sdiv | udiv | srem | urem => exact hdiv rfl
  | _ => exact hbinary rfl

/-- The simulator computes what an instruction of an expression does. -/
theorem exists_compute {state : RunState} {inst : Inst} {data : InstructionData} {ty : Ty}
    {o : Option (BitVec ty.bits)} (h : Computes divide (bitEnv state.registers) data ty o)
    (hty : resultTy func inst 0 = some ty) :
    ∃ v x, o = some x ∧ compute func state inst data = .ok v ∧ v.toBits = ⟨ty, x⟩ := by
  have hread {x : Value} {a : BitVec 64} (hx : bitEnv state.registers x = some ⟨.I64, a⟩) :
      state.registers x = some (.I64 a) := registers_of_bitEnv hx
  cases h with
  | iconst imm =>
      refine ⟨.I64 imm, imm, rfl, ?_, rfl⟩
      simp only [compute, hty, Option.getD_some, SimValue.ofI64]
  | @binary op x y a b hx hy =>
      obtain ⟨z, hz, hbinary⟩ := exists_applyBinary_eval op a b
      exact ⟨.I64 z, z, hz, (compute_binary (hread hx) (hread hy)).trans hbinary, rfl⟩
  | ineg hx => exact ⟨_, _, rfl, compute_unary (hread hx), rfl⟩
  | bnot hx => exact ⟨_, _, rfl, compute_unary (hread hx), rfl⟩
  | @icmp cond x y a b hx hy =>
      refine ⟨_, _, rfl, compute_intCompare (hread hx) (hread hy), ?_⟩
      rw [toBits_ofBool, icmp_eq_holds]
      rfl
  | @uextend x a hx =>
      have hx' : state.registers x = some (.I8 a) := registers_of_bitEnv hx
      refine ⟨.I64 (a.setWidth 64), _, rfl, ?_, rfl⟩
      rw [compute_unary hx', hty]
      rfl
  | @select c x y i a b hc hx hy =>
      refine ⟨_, _, rfl, compute_select (hread hc) (hread hx) (hread hy), ?_⟩
      exact (apply_ite SimValue.toBits (i ≠ 0) (.I64 a) (.I64 b)).trans
        (apply_ite (BitVal.mk .I64) (i ≠ 0) a b).symm

/-- The simulator executes the instructions of expressions. -/
theorem runs_machine (func : Function) (b : Block) (mem : Memory) :
    Runs (Sim.machine func) func b divide (SimAt b mem) fun _ ↦ False where
  next := by
    rintro bcx data ty o env config hfin ⟨hstatus, rfl, hmem⟩ hcomputes
    have hresults := hfin.instResults_insertOne
    have hty : resultTy func (bcx.insert data [ty]).2 0 = some ty := by
      rw [resultTy, hresults]
      exact congrArg some hfin.valueType_insertOne
    have hstep : step func config.state (bcx.insert data [ty]).2 data =
        computeStep func config.state (bcx.insert data [ty]).2 data := by
      cases hcomputes <;> rfl
    obtain ⟨v, x, rfl, hv, hbits⟩ := exists_compute hcomputes hty
    rw [next_of_instAt hstatus hfin.instAt_insert, hfin.data_insert, hstep, computeStep, hv]
    refine ⟨rfl, ?_, (memory_bindResults _ _ _ _ _).trans hmem⟩
    show bitEnv (bindResults _ _ _ [v] _).registers = _
    rw [registers_bindResults, hresults, bitEnv_insertAll, List.map_singleton, hbits]
    rfl
  trapped _ h := h

end

/-! ## The reference machine -/

/-- The reference machine is at a place of the block, with this memory. -/
def RefAt (b : Block) (mem : Mem) (n : Nat) (env : BitEnv) (c : Full.Config) : Prop :=
  c = .running ⟨b, n⟩ env mem

/-- The reference machine computes what an instruction of an expression does. -/
theorem exec_of_computes {func : Function} {p : Function.Point} {env : BitEnv} {mem : Mem}
    {inst : Inst} {host : Host} {data : InstructionData} {ty : Ty} {o : Option (BitVec ty.bits)}
    {r : Value} (h : Computes quotient env data ty o) (hr : func.dfg.instResults inst = [r])
    (hty : func.dfg.valueType r = ty) :
    Full.exec func p env mem inst host data = o.elim (.ended .trapped mem) fun x ↦
      .running ⟨p.block, p.index + 1⟩ (env.insert r ⟨ty, x⟩) mem := by
  have hassign {x : BitVec ty.bits} (href : data.opcode.isReference)
      (hexec : Reference.exec func p env inst data = Reference.assign func p env inst data)
      (heval : Reference.eval env ty data = some ⟨ty, x⟩) :
      Full.exec func p env mem inst host data =
        .running ⟨p.block, p.index + 1⟩ (env.insert r ⟨ty, x⟩) mem := by
    unfold Full.exec
    rw [if_pos href, hexec, Reference.assign, hr]
    simp only [hty, heval, Full.Config.ofInteger]
  cases h with
  | iconst imm =>
      refine hassign rfl rfl ?_
      exact congrArg (fun x ↦ some (BitVal.mk .I64 x)) (BitVec.setWidth_eq imm)
  | @binary op x y a b hx hy =>
      have heval (z : BitVec 64) (hz : Reference.binary op.opcode a b = some z) :
          Reference.eval env .I64 (.binary op.opcode x y) = some ⟨.I64, z⟩ := by
        rw [Reference.eval, hx, hy]
        exact (@BitVal.binary_mk op.opcode .I64 a b).trans (congrArg (Option.map _) hz)
      cases op with
      | sdiv | udiv | srem | urem => exact Full.exec_division rfl rfl hx hy hr
      | _ => exact hassign rfl rfl (heval _ rfl)
  | ineg hx | bnot hx =>
      refine hassign rfl rfl ?_
      rw [Reference.eval, hx]
      rfl
  | @icmp cond x y a b hx hy =>
      refine hassign rfl rfl ?_
      rw [Reference.eval, hx, hy]
      exact @BitVal.compare_mk cond .I64 a b
  | uextend hx =>
      refine hassign rfl rfl ?_
      rw [Reference.eval, hx]
      rfl
  | @select c x y i a b hc hx hy =>
      refine hassign rfl rfl ?_
      rw [Reference.eval, hc, hx, hy]
      show some (if decide (i ≠ 0) = true then BitVal.mk .I64 a else .mk .I64 b) = _
      simp only [decide_eq_true_eq]
      exact congrArg some (apply_ite (BitVal.mk .I64) (i ≠ 0) a b).symm

/-- The reference machine executes the instructions of expressions. -/
theorem runs_reference (func : Function) (b : Block) (host : Host) (mem : Mem) :
    Runs (Full.machine func host) func b quotient (RefAt b mem) (· = .ended .trapped mem) where
  next := by
    rintro bcx data ty o env _ hfin rfl hcomputes
    rw [Full.next_of_instAt _ hfin.instAt_insert, hfin.data_insert,
      exec_of_computes hcomputes hfin.instResults_insertOne hfin.valueType_insertOne]
    cases o <;> rfl
  trapped := by
    rintro _ rfl
    rfl

/-! ## The function built around an expression -/

/-- The instructions of the expression, and the return. -/
theorem finishes_buildSimFunc (e : Expr) :
    ((e.build (entryParams Expr.sig) (.entry Expr.sig)).1.insert (.multiAry .return_
      [(e.build (entryParams Expr.sig) (.entry Expr.sig)).2]) []).1.Finishes (buildSimFunc e)
        entryBlock :=
  finishes_func _ _

/-- What the parameters hold at the start. -/
def argEnv (x y : BitVec 64) : BitEnv :=
  Env.insertAll (entryParams Expr.sig) [⟨.I64, x⟩, ⟨.I64, y⟩] .empty

theorem holdsArgs_argEnv (x y : BitVec 64) :
    HoldsArgs (argEnv x y) (entryParams Expr.sig) [x, y] := rfl

theorem ends_buildSimFunc {σ ρ : Type} {M : Machine σ ρ} {div : Divide}
    {At : Nat → BitEnv → σ → Prop} {Trap : σ → Prop} (e : Expr) {x y : BitVec 64} {s : σ}
    (hruns : Runs M (buildSimFunc e) entryBlock div At Trap) (hat : At 0 (argEnv x y) s) :
    Ends At Trap (.entry Expr.sig) (e.build (entryParams Expr.sig) (.entry Expr.sig)) (argEnv x y)
      .I64 (M.after e.numInsts s) (e.eval div [x, y]) :=
  ends_build hruns e hasParams_entry
    ((finishes_buildSimFunc e).of_extends (TypedBuilder.extends_insert _ _ _)) hat
    (holdsArgs_argEnv x y)

/-- The reference machine returns the value of the expression, or it traps. -/
theorem haltsAt_buildSimFunc (e : Expr) (host : Host) (mem : Mem) (x y : BitVec 64) :
    ∃ k ≤ e.numInsts + 1, (Full.machine (buildSimFunc e) host).HaltsAt
      (Full.start (buildSimFunc e) mem [⟨.I64, x⟩, ⟨.I64, y⟩]) k
      ((e.eval quotient [x, y]).elim .trapped fun v ↦ .returned [⟨.I64, v⟩], mem) := by
  have hends := ends_buildSimFunc e
    (s := Full.start (buildSimFunc e) mem [⟨.I64, x⟩, ⟨.I64, y⟩])
    (runs_reference (buildSimFunc e) entryBlock host mem) rfl
  have hfin := finishes_buildSimFunc e
  refine Machine.exists_haltsAt_of_done Full.next_of_done ?_
  rw [Machine.after_succ']
  cases heval : e.eval quotient [x, y] with
  | none =>
      rw [heval] at hends
      rw [show Machine.after _ e.numInsts _ = _ from hends]
      rfl
  | some v =>
      rw [heval] at hends
      obtain ⟨env, hat, hv, -⟩ := hends
      rw [show Machine.after _ e.numInsts _ = _ from hat,
        Full.next_of_instAt _ hfin.instAt_insert, hfin.data_insert]
      have hargs := Env.lookupAll_eq_ok_iff.mpr
        (show [_].map env = [BitVal.mk .I64 v].map some from congrArg (fun o ↦ [o]) hv)
      simp only [Full.exec, InstructionData.opcode, Opcode.isReference, if_true, Reference.exec,
        hargs, Full.Config.ofInteger]
      rfl

section

variable [RustCore]

/-- The simulator returns the value of the expression by the convention. -/
theorem exists_run_of_eval {e : Expr} {x y v : BitVec 64} (heval : e.eval divide [x, y] = some v)
    {sim : Simulator} (hbudget : e.numInsts + 1 ≤ sim.maxSteps) :
    ∃ r, sim.run (buildSimFunc e) [.I64 x, .I64 y] = some r ∧ r.error = none ∧
      r.returns = [.I64 v] ∧ r.memory = sim.memory := by
  have hfin := finishes_buildSimFunc e
  have hstart : SimAt entryBlock sim.memory 0 (argEnv x y)
      (sim.start (buildSimFunc e) [.I64 x, .I64 y]) := by
    refine ⟨rfl, ?_, rfl⟩
    exact bitEnv_insertAll _ [.I64 x, .I64 y] .empty
  have hends := ends_buildSimFunc e (runs_machine (buildSimFunc e) entryBlock sim.memory) hstart
  rw [heval] at hends
  obtain ⟨env, ⟨hstatus, henv, hmem⟩, hv, -⟩ := hends
  generalize hconfig : (Sim.machine (buildSimFunc e)).after e.numInsts _ = config
    at hstatus henv hmem
  have hget : config.state.getAll [(e.build (entryParams Expr.sig) (.entry Expr.sig)).2] =
      .ok [.I64 v] := by
    refine RunState.getAll_eq_ok_iff.mpr (Env.lookupAll_eq_ok_iff.mpr ?_)
    have hbits : bitEnv config.state.registers _ = some (SimValue.I64 v).toBits :=
      (congrFun henv _).trans hv
    exact congrArg (fun o ↦ [o]) (registers_of_bitEnv hbits)
  have hnext : ∃ state, sim.configAfter (buildSimFunc e) [.I64 x, .I64 y] (e.numInsts + 1) =
      ⟨.halted (.ended [.I64 v] none), state⟩ ∧ state.memory = sim.memory := by
    rw [Simulator.configAfter_succ, show sim.configAfter _ _ e.numInsts = config from hconfig,
      next_of_instAt hstatus hfin.instAt_insert, hfin.data_insert]
    simp only [step, returnStep, hget, advance]
    exact ⟨_, rfl, (RunState.memory_log _ _).trans hmem⟩
  obtain ⟨state, hlast, hmem'⟩ := hnext
  have hhalts : (Sim.machine (buildSimFunc e)).HaltsAt
      (sim.start (buildSimFunc e) [.I64 x, .I64 y]) (e.numInsts + 1) (.ended [.I64 v] none) := by
    refine ⟨Simulator.running_of_instAt (p := ⟨entryBlock, _⟩) ?_ hfin.instAt_insert, ?_⟩
    · exact (congrArg Sim.Config.status hconfig).trans hstatus
    · exact congrArg (Sim.done _) hlast
  refine ⟨_, run_of_exec (exec_of_haltsAt hhalts hbudget), rfl, rfl, ?_⟩
  show (sim.configAfter _ _ (e.numInsts + 1)).state.memory = _
  rw [hlast]
  exact hmem'

/-- **Divisions never panic.**  The function built around an expression is run on any two
integers, within a budget for its instructions.  The run returns the value of the expression
by the convention that a division that would trap gives 0, without an error, and it leaves the
memory as it is. -/
theorem div_never_panics (e : Expr) (sim : Simulator) (hbudget : e.numInsts + 1 ≤ sim.maxSteps)
    (x y : BitVec 64) : ∃ v r, e.eval divide [x, y] = some v ∧
      sim.run (buildSimFunc e) [.I64 x, .I64 y] = some r ∧ r.error = none ∧
      r.returns = [.I64 v] ∧ r.memory = sim.memory := by
  obtain ⟨v, heval⟩ := e.exists_eval_divide (List.cons_ne_nil x [y])
  obtain ⟨r, hrun, herror, hreturns, hmem⟩ := exists_run_of_eval heval hbudget
  exact ⟨v, r, heval, hrun, herror, hreturns, hmem⟩

end

section

local instance neverPanicsFmt : RustCore := .blank

/-- `7 / (x - x)` is 0. -/
theorem div_never_panics_zero : ∃ r, (Simulator.ofBudget 4).run
    (buildSimFunc (.bin .sdiv (.const 7) (.bin .sub (.param 0) (.param 0)))) [.I64 3, .I64 5] =
      some r ∧ r.returns = [.I64 0] := by
  obtain ⟨v, r, heval, hrun, -, hreturns, -⟩ := div_never_panics
    (.bin .sdiv (.const 7) (.bin .sub (.param 0) (.param 0))) (.ofBudget 4) (by decide) 3 5
  cases heval
  exact ⟨r, hrun, hreturns⟩

end

section

variable [RustCore] {M E : Type} {impl : ModuleImpl M E} {module module' : M} {name : String}
  {linkage : Linkage} {e : Expr} {id : FuncId} {ctx : Context}

/-- **The simulator matches the JIT.**  The closure of an expression is handed to a module, and
the function the module is given is executed on any two integers and any memory.  It is
verified, and the execution ends within its instructions: it returns the value of the
expression, or it traps if a division in it does.  If it returns, the run of the simulator on
the function built for it returns the same value; and without divisions, it returns. -/
theorem sim_matches_jit
    (h : declareAndBuild impl module name linkage Expr.sig e.body = (module', .ok (id, ctx)))
    (host : Host) (mem : Mem) (x y : BitVec 64) :
    Verified ctx.func entryBlock ∧
      (∃ k ≤ e.numInsts + 1, (Full.machine ctx.func host).HaltsAt
        (Full.start ctx.func mem [⟨.I64, x⟩, ⟨.I64, y⟩]) k
        ((e.eval quotient [x, y]).elim .trapped fun v ↦ .returned [⟨.I64, v⟩], mem)) ∧
      (∀ v, e.eval quotient [x, y] = some v → ∀ sim : Simulator, e.numInsts + 1 ≤ sim.maxSteps →
        ∃ r, sim.run (buildSimFunc e) [.I64 x, .I64 y] = some r ∧ r.error = none ∧
          r.returns = [.I64 v]) ∧
      ((∀ op ∈ e.binOps, op ∈ arbBinop false) → ∃ v, e.eval quotient [x, y] = some v) := by
  rw [func_declareAndBuild h]
  refine ⟨verified_buildSimFunc e, haltsAt_buildSimFunc e host mem x y, ?_, fun hops ↦ ?_⟩
  · intro v heval sim hbudget
    obtain ⟨r, hrun, herror, hreturns, -⟩ :=
      exists_run_of_eval (Expr.eval_divide_of_quotient heval) hbudget
    exact ⟨r, hrun, herror, hreturns⟩
  · exact Expr.exists_eval_quotient (List.cons_ne_nil x [y]) hops

end

/-! ## The greater of two -/

/-- `if x < y { y } else { x }`. -/
def Expr.greater : Expr :=
  .select (.cmp .signedLessThan (.param 0) (.param 1)) (.param 1) (.param 0)

section

local instance matchesJitFmt : RustCore := .blank

/-- The greater of 2 and 40. -/
theorem sim_matches_jit_greater : ∃ r, (Simulator.ofBudget 4).run (buildSimFunc Expr.greater)
    [.I64 2, .I64 40] = some r ∧ r.error = none ∧ r.returns = [.I64 40] := by
  have hdefine : declareAndBuild Sum.impl () "f" .export_ Expr.sig Expr.greater.body =
      ((), .ok (⟨0⟩, ⟨buildSimFunc Expr.greater, false, none⟩)) := rfl
  obtain ⟨-, -, hsim, hvalue⟩ := sim_matches_jit hdefine .stub (fun _ ↦ none) 2 40
  obtain ⟨v, hv⟩ := hvalue (by decide)
  have heval : v = 40 := Option.some.inj (hv.symm.trans rfl)
  subst heval
  exact hsim 40 hv (.ofBudget 4) (by decide)

end

end LowerIrUtils.Export
