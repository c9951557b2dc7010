import LowerIrUtils.Clif.Semantics
import LowerIrUtils.Export.Built
import LowerIrUtils.Sim.ReferenceOps

/-!
# Expressions

The expressions of `tests/sim_proptest.rs`, and `build`, which lowers an expression to
instructions of the block a builder is switched to.  Every expression has type `i64`; the
instructions it is lowered to are well typed and stay in the block (`yields_build`), so the
function built around an expression is verified.

What an expression is worth is told by `Expr.eval`, on 64-bit integers and for one way or
another to divide.
-/

namespace LowerIrUtils.Export

open Clif Reference

/-- `BinOp`. -/
inductive BinOp where
  | add | sub | mul | and | or | xor | shl | ushr | sshr
  | sdiv | udiv | srem | urem
deriving DecidableEq, Repr

/-- `Expr`. -/
inductive Expr where
  | param (i : Nat)
  | const (c : BitVec 64)
  | bin (op : BinOp) (a b : Expr)
  | addImm (a : Expr) (imm : BitVec 64)
  | mulImm (a : Expr) (imm : BitVec 64)
  | neg (a : Expr)
  | bnot (a : Expr)
  | cmp (cc : IntCC) (a b : Expr)
  | select (c a b : Expr)
deriving DecidableEq, Repr

/-- The operations `arb_binop` chooses from. -/
def arbBinop (allowDiv : Bool) : List BinOp :=
  [.add, .sub, .mul, .and, .or, .xor, .shl, .ushr, .sshr] ++
    if allowDiv then [.sdiv, .udiv, .srem, .urem] else []

/-! ## Emitting -/

namespace TypedBuilder

/-- The methods of `ins()` for two operands of the type of the result. -/
def insBinary (bcx : TypedBuilder) (op : Opcode) (x y : Value) : TypedBuilder × Value :=
  bcx.insertOne (.binary op x y) (bcx.valueType x)

/-- The methods of `ins()` for one operand of the type of the result. -/
def insUnary (bcx : TypedBuilder) (op : Opcode) (x : Value) : TypedBuilder × Value :=
  bcx.insertOne (.unary op x) (bcx.valueType x)

/-- The methods of `ins()` for an operand and an immediate that is sign-extended: there is no
such instruction, so the immediate becomes a constant of the type of the operand. -/
def insBinaryImmS (bcx : TypedBuilder) (op : Opcode) (x : Value) (imm : BitVec 64) :
    TypedBuilder × Value :=
  let (bcx, y) := bcx.iconst (bcx.valueType x) imm
  bcx.insBinary op x y

/-- `ins().icmp(cond, x, y)`. -/
def icmp (bcx : TypedBuilder) (cond : IntCC) (x y : Value) : TypedBuilder × Value :=
  bcx.insertOne (.intCompare .icmp cond x y) .I8

/-- `ins().uextend(ty, x)`. -/
def uextend (bcx : TypedBuilder) (ty : Ty) (x : Value) : TypedBuilder × Value :=
  bcx.insertOne (.unary .uextend x) ty

/-- `ins().select(c, x, y)`. -/
def select (bcx : TypedBuilder) (c x y : Value) : TypedBuilder × Value :=
  bcx.insertOne (.ternary .select c x y) (bcx.valueType x)

end TypedBuilder

/-- The instruction `build` emits for an operation. -/
def BinOp.opcode : BinOp → Opcode
  | add => .iadd
  | sub => .isub
  | mul => .imul
  | and => .band
  | or => .bor
  | xor => .bxor
  | shl => .ishl
  | ushr => .ushr
  | sshr => .sshr
  | sdiv => .sdiv
  | udiv => .udiv
  | srem => .srem
  | urem => .urem

/-- `build`, for parameters of which there is at least one. -/
def Expr.build (params : List Value) : Expr → TypedBuilder → TypedBuilder × Value
  | param i, bcx => (bcx, (params[i % params.length]?).getD ⟨0⟩)
  | const c, bcx => bcx.iconst .I64 c
  | bin op a b, bcx =>
      let (bcx, x) := a.build params bcx
      let (bcx, y) := b.build params bcx
      bcx.insBinary op.opcode x y
  | addImm a imm, bcx =>
      let (bcx, x) := a.build params bcx
      bcx.insBinaryImmS .iadd x imm
  | mulImm a imm, bcx =>
      let (bcx, x) := a.build params bcx
      bcx.insBinaryImmS .imul x imm
  | neg a, bcx =>
      let (bcx, x) := a.build params bcx
      bcx.insUnary .ineg x
  | bnot a, bcx =>
      let (bcx, x) := a.build params bcx
      bcx.insUnary .bnot x
  | cmp cc a b, bcx =>
      let (bcx, x) := a.build params bcx
      let (bcx, y) := b.build params bcx
      let (bcx, c) := bcx.icmp cc x y
      bcx.uextend .I64 c
  | select c a b, bcx =>
      let (bcx, cond) := c.build params bcx
      let (bcx, x) := a.build params bcx
      let (bcx, y) := b.build params bcx
      bcx.select cond x y

/-- `fn(i64, i64) -> i64`. -/
def Expr.sig : Signature := ⟨[.I64, .I64], [.I64]⟩

/-- The function `build_sim_func` builds. -/
def buildSimFunc (e : Expr) : Function :=
  let (bcx, v) := e.build (entryParams Expr.sig) (.entry Expr.sig)
  bcx.build Expr.sig [v]

/-- The closure `jit_eval` hands to `define_function`. -/
def Expr.body {M : Type} (e : Expr) (bcx : TypedBuilder) (module : M) (params : List Value) :
    TypedBuilder × M × Value :=
  let (bcx, v) := e.build params bcx
  (bcx, module, v)

/-! ## Meaning -/

/-- A way to divide, where there may be no quotient or remainder. -/
abbrev Divide := Opcode → BitVec 64 → BitVec 64 → Option (BitVec 64)

/-- What an operation gives. -/
def BinOp.eval (div : Divide) (x y : BitVec 64) : BinOp → Option (BitVec 64)
  | add => some (x + y)
  | sub => some (x - y)
  | mul => some (x * y)
  | and => some (x &&& y)
  | or => some (x ||| y)
  | xor => some (x ^^^ y)
  | shl => some (x <<< (y.toNat % 64))
  | ushr => some (x >>> (y.toNat % 64))
  | sshr => some (x.sshiftRight (y.toNat % 64))
  | sdiv => div .sdiv x y
  | udiv => div .udiv x y
  | srem => div .srem x y
  | urem => div .urem x y

namespace Expr

/-- What an expression is worth.  Both branches of a `select` are computed. -/
def eval (div : Divide) (args : List (BitVec 64)) : Expr → Option (BitVec 64)
  | param i => args[i % args.length]?
  | const c => some c
  | bin op a b => do
      let x ← a.eval div args
      let y ← b.eval div args
      op.eval div x y
  | addImm a imm => do
      let x ← a.eval div args
      some (x + imm)
  | mulImm a imm => do
      let x ← a.eval div args
      some (x * imm)
  | neg a => do
      let x ← a.eval div args
      some (-x)
  | bnot a => do
      let x ← a.eval div args
      some (~~~x)
  | cmp cc a b => do
      let x ← a.eval div args
      let y ← b.eval div args
      some (if cc.holds x y then 1 else 0)
  | select c a b => do
      let c ← c.eval div args
      let x ← a.eval div args
      let y ← b.eval div args
      some (if c ≠ 0 then x else y)

/-- The operations of an expression. -/
def binOps : Expr → List BinOp
  | param _ | const _ => []
  | bin op a b => op :: (a.binOps ++ b.binOps)
  | addImm a _ | mulImm a _ | neg a | bnot a => a.binOps
  | cmp _ a b => a.binOps ++ b.binOps
  | select c a b => c.binOps ++ (a.binOps ++ b.binOps)

/-- The number of instructions of an expression. -/
def numInsts : Expr → Nat
  | param _ => 0
  | const _ => 1
  | bin _ a b => a.numInsts + (b.numInsts + 1)
  | addImm a _ | mulImm a _ => a.numInsts + 2
  | neg a | bnot a => a.numInsts + 1
  | cmp _ a b => a.numInsts + (b.numInsts + 2)
  | select c a b => c.numInsts + (a.numInsts + (b.numInsts + 1))

section

variable {div div' : Divide} {args : List (BitVec 64)}

/-- An expression is worth something if all its operations give something. -/
theorem exists_eval (hargs : args ≠ []) (e : Expr)
    (hops : ∀ op ∈ e.binOps, ∀ x y, ∃ z, op.eval div x y = some z) :
    ∃ v, e.eval div args = some v := by
  induction e with
  | param i =>
      have hlt := Nat.mod_lt i (List.length_pos_iff.mpr hargs)
      exact ⟨_, List.getElem?_eq_getElem hlt⟩
  | const c => exact ⟨c, rfl⟩
  | bin op a b iha ihb =>
      rw [binOps, List.forall_mem_cons, List.forall_mem_append] at hops
      obtain ⟨hop, ha, hb⟩ := hops
      obtain ⟨x, hx⟩ := iha ha
      obtain ⟨y, hy⟩ := ihb hb
      obtain ⟨z, hz⟩ := hop x y
      refine ⟨z, ?_⟩
      rw [eval, hx, hy]
      exact hz
  | addImm a imm ih | mulImm a imm ih =>
      obtain ⟨x, hx⟩ := ih hops
      rw [eval, hx]
      exact ⟨_, rfl⟩
  | neg a ih | bnot a ih =>
      obtain ⟨x, hx⟩ := ih hops
      rw [eval, hx]
      exact ⟨_, rfl⟩
  | cmp cc a b iha ihb =>
      rw [binOps, List.forall_mem_append] at hops
      obtain ⟨x, hx⟩ := iha hops.1
      obtain ⟨y, hy⟩ := ihb hops.2
      rw [eval, hx, hy]
      exact ⟨_, rfl⟩
  | select c a b ihc iha ihb =>
      rw [binOps, List.forall_mem_append, List.forall_mem_append] at hops
      obtain ⟨z, hz⟩ := ihc hops.1
      obtain ⟨x, hx⟩ := iha hops.2.1
      obtain ⟨y, hy⟩ := ihb hops.2.2
      rw [eval, hz, hx, hy]
      exact ⟨_, rfl⟩

/-- A way to divide that gives a quotient in more cases gives it for more expressions. -/
theorem eval_mono (hdiv : ∀ op x y q, div op x y = some q → div' op x y = some q) (e : Expr)
    {v : BitVec 64} (h : e.eval div args = some v) : e.eval div' args = some v := by
  have hop (op : BinOp) (x y z : BitVec 64) (hz : op.eval div x y = some z) :
      op.eval div' x y = some z := by
    cases op <;> first | exact hz | exact hdiv _ _ _ _ hz
  induction e generalizing v with
  | param i | const c => exact h
  | bin op a b iha ihb =>
      simp only [eval, Option.bind_eq_bind, Option.bind_eq_some_iff] at h ⊢
      obtain ⟨x, hx, y, hy, hz⟩ := h
      exact ⟨x, iha hx, y, ihb hy, hop op x y v hz⟩
  | addImm a imm ih | mulImm a imm ih | neg a ih | bnot a ih =>
      simp only [eval, Option.bind_eq_bind, Option.bind_eq_some_iff] at h ⊢
      obtain ⟨x, hx, hz⟩ := h
      exact ⟨x, ih hx, hz⟩
  | cmp cc a b iha ihb =>
      simp only [eval, Option.bind_eq_bind, Option.bind_eq_some_iff] at h ⊢
      obtain ⟨x, hx, y, hy, hz⟩ := h
      exact ⟨x, iha hx, y, ihb hy, hz⟩
  | select c a b ihc iha ihb =>
      simp only [eval, Option.bind_eq_bind, Option.bind_eq_some_iff] at h ⊢
      obtain ⟨i, hi, x, hx, y, hy, hz⟩ := h
      exact ⟨i, ihc hi, x, iha hx, y, ihb hy, hz⟩

end

/-- The convention always has a quotient. -/
theorem exists_eval_divide {args : List (BitVec 64)} (hargs : args ≠ []) (e : Expr) :
    ∃ v, e.eval divide args = some v := by
  refine exists_eval hargs e fun op _ x y ↦ ?_
  cases op <;> exact ⟨_, rfl⟩

/-- Without divisions nothing can trap. -/
theorem exists_eval_quotient {args : List (BitVec 64)} (hargs : args ≠ []) {e : Expr}
    (h : ∀ op ∈ e.binOps, op ∈ arbBinop false) : ∃ v, e.eval quotient args = some v := by
  refine exists_eval hargs e fun op hop x y ↦ ?_
  have hmem := h op hop
  cases op with
  | sdiv | udiv | srem | urem => exact absurd hmem (by decide)
  | _ => exact ⟨_, rfl⟩

/-- A quotient is the one of the convention. -/
theorem eval_divide_of_quotient {args : List (BitVec 64)} {e : Expr} {v : BitVec 64}
    (h : e.eval quotient args = some v) : e.eval divide args = some v :=
  eval_mono (fun _ _ _ _ hq ↦ (Sim.divide_of_quotient hq).1) e h

end Expr

/-! ## Typing -/

/-- The builder knows the value, with this type. -/
structure Has (bcx : TypedBuilder) (v : Value) (ty : Ty) : Prop where
  known : v.index < bcx.numValues
  type : bcx.valueType v = ty

/-- From `bcx` on well-typed instructions have been appended for a value of type `ty`. -/
structure Yields (sig : Signature) (bcx : TypedBuilder) (r : TypedBuilder × Value) (ty : Ty) :
    Prop where
  builds : Builds sig bcx r.1
  has : Has r.1 r.2 ty

section

variable {sig : Signature} {bcx bcx' : TypedBuilder} {r r' : TypedBuilder × Value} {ty ty' : Ty}
  {v x y : Value}

theorem Has.of_extends (h : Has bcx v ty) (hext : bcx.Extends bcx') : Has bcx' v ty where
  known := Nat.lt_of_lt_of_le h.known hext.numValues
  type := (hext.valueType v h.known).trans h.type

/-- What was known stays known. -/
theorem Has.of_yields (h : Has bcx v ty) (hr : Yields sig bcx r ty') : Has r.1 v ty :=
  h.of_extends hr.builds.extends

theorem Yields.trans (h : Yields sig bcx r ty) (h' : Yields sig r.1 r' ty') :
    Yields sig bcx r' ty' :=
  ⟨h.builds.trans h'.builds, h'.has⟩

theorem yields_insertOne {data : InstructionData} (hterm : data.isTerminator = false)
    (huses : Uses bcx data) (htyping : InstTyping (bcx.func sig) data [ty]) :
    Yields sig bcx (bcx.insertOne data ty) ty where
  builds := .insert .refl hterm huses htyping
  has := ⟨Nat.lt_succ_self _, bcx.valueType_insertOne data ty⟩

theorem yields_iconst (sig : Signature) (bcx : TypedBuilder) (hty : ty.isSimInt)
    (imm : BitVec 64) : Yields sig bcx (bcx.iconst ty imm) ty := by
  refine yields_insertOne rfl ⟨?_, nofun⟩ (.iconst hty)
  exact fun v hv ↦ absurd hv List.not_mem_nil

theorem yields_insBinary (sig : Signature) {op : Opcode} (hop : op.isIntBinary)
    (hty : ty.isSimInt) (hx : Has bcx x ty) (hy : Has bcx y ty) :
    Yields sig bcx (bcx.insBinary op x y) ty := by
  rw [TypedBuilder.insBinary, hx.type]
  refine yields_insertOne rfl ⟨?_, nofun⟩ (.intBinary hop hx.type hy.type hty)
  rintro v (_ | ⟨_, _ | ⟨_, hv⟩⟩)
  · exact hx.known
  · exact hy.known
  · cases hv

theorem yields_insBinaryImmS (sig : Signature) {op : Opcode} (hop : op.isIntBinary)
    (hty : ty.isSimInt) (hx : Has bcx x ty) (imm : BitVec 64) :
    Yields sig bcx (bcx.insBinaryImmS op x imm) ty := by
  have himm := yields_iconst sig bcx hty imm
  rw [← hx.type] at himm
  exact himm.trans (yields_insBinary sig hop hty (hx.of_yields himm) (hx.type ▸ himm.has))

theorem yields_insUnary (sig : Signature) {op : Opcode} (hop : op = .ineg ∨ op = .bnot)
    (hty : ty.isSimInt) (hx : Has bcx x ty) : Yields sig bcx (bcx.insUnary op x) ty := by
  rw [TypedBuilder.insUnary, hx.type]
  refine yields_insertOne rfl ⟨?_, nofun⟩ ?_
  · rintro v (_ | ⟨_, hv⟩)
    · exact hx.known
    · cases hv
  · rcases hop with rfl | rfl
    · exact .ineg hx.type hty
    · exact .bnot hx.type hty

theorem yields_icmp (sig : Signature) (cond : IntCC) (hty : ty.isSimInt) (hx : Has bcx x ty)
    (hy : Has bcx y ty) : Yields sig bcx (bcx.icmp cond x y) .I8 := by
  refine yields_insertOne rfl ⟨?_, nofun⟩ (.icmp hx.type hy.type hty)
  rintro v (_ | ⟨_, _ | ⟨_, hv⟩⟩)
  · exact hx.known
  · exact hy.known
  · cases hv

theorem yields_uextend (sig : Signature) (hx : Has bcx x .I8) :
    Yields sig bcx (bcx.uextend .I64 x) .I64 := by
  have htype : (bcx.func sig).dfg.valueType x = .I8 := hx.type
  refine yields_insertOne rfl ⟨?_, nofun⟩ (.uextend ?_ rfl ?_)
  · rintro v (_ | ⟨_, hv⟩)
    · exact hx.known
    · cases hv
  · rw [htype]
    rfl
  · rw [htype]
    decide

theorem yields_select (sig : Signature) (hty : ty.isSimInt) (hv : Has bcx v ty)
    (hx : Has bcx x ty) (hy : Has bcx y ty) : Yields sig bcx (bcx.select v x y) ty := by
  rw [TypedBuilder.select, hx.type]
  refine yields_insertOne rfl ⟨?_, nofun⟩ (.select ?_ hx.type hy.type ?_)
  · rintro w (_ | ⟨_, _ | ⟨_, _ | ⟨_, hw⟩⟩⟩)
    · exact hv.known
    · exact hx.known
    · exact hy.known
    · cases hw
  · exact (congrArg Ty.isSimInt hv.type).trans hty
  · rw [Ty.isSim, hty, Bool.true_or]

end

/-- The parameters an expression is built over. -/
structure HasParams (bcx : TypedBuilder) (params : List Value) : Prop where
  ne_nil : params ≠ []
  has : ∀ v ∈ params, Has bcx v .I64

theorem HasParams.of_yields {sig : Signature} {bcx : TypedBuilder} {r : TypedBuilder × Value}
    {ty : Ty} {params : List Value} (h : HasParams bcx params) (hr : Yields sig bcx r ty) :
    HasParams r.1 params where
  ne_nil := h.ne_nil
  has v hv := (h.has v hv).of_yields hr

/-- The parameter that is taken. -/
theorem HasParams.exists_getElem? {bcx : TypedBuilder} {params : List Value}
    (h : HasParams bcx params) (i : Nat) :
    ∃ v, params[i % params.length]? = some v ∧ Has bcx v .I64 := by
  have hlt := Nat.mod_lt i (List.length_pos_iff.mpr h.ne_nil)
  exact ⟨_, List.getElem?_eq_getElem hlt, h.has _ (List.getElem_mem hlt)⟩

/-- An expression is lowered to well-typed instructions, and its value to one of type `i64`. -/
theorem yields_build (sig : Signature) {params : List Value} (e : Expr) {bcx : TypedBuilder}
    (hparams : HasParams bcx params) : Yields sig bcx (e.build params bcx) .I64 := by
  induction e generalizing bcx with
  | param i =>
      obtain ⟨v, hv, hhas⟩ := hparams.exists_getElem? i
      rw [Expr.build, hv]
      exact ⟨.refl, hhas⟩
  | const c => exact yields_iconst sig bcx rfl c
  | bin op a b iha ihb =>
      have ha := iha hparams
      have hb := ihb (hparams.of_yields ha)
      have hop : op.opcode.isIntBinary := by cases op <;> rfl
      exact (ha.trans hb).trans (yields_insBinary sig hop rfl (ha.has.of_yields hb) hb.has)
  | addImm a imm ih | mulImm a imm ih =>
      have ha := ih hparams
      exact ha.trans (yields_insBinaryImmS sig rfl rfl ha.has imm)
  | neg a ih =>
      have ha := ih hparams
      exact ha.trans (yields_insUnary sig (.inl rfl) rfl ha.has)
  | bnot a ih =>
      have ha := ih hparams
      exact ha.trans (yields_insUnary sig (.inr rfl) rfl ha.has)
  | cmp cc a b iha ihb =>
      have ha := iha hparams
      have hb := ihb (hparams.of_yields ha)
      have hc := yields_icmp sig cc rfl (ha.has.of_yields hb) hb.has
      exact (ha.trans hb).trans (hc.trans (yields_uextend sig hc.has))
  | select c a b ihc iha ihb =>
      have hc := ihc hparams
      have ha := iha (hparams.of_yields hc)
      have hb := ihb ((hparams.of_yields hc).of_yields ha)
      refine ((hc.trans ha).trans hb).trans (yields_select sig rfl ?_ ?_ hb.has)
      · exact (hc.has.of_yields ha).of_yields hb
      · exact ha.has.of_yields hb

theorem hasParams_entry : HasParams (.entry Expr.sig) (entryParams Expr.sig) where
  ne_nil := by decide
  has v hv := by
    have hlt : v.index < 2 := mem_entryParams.mp hv
    refine ⟨hlt, ?_⟩
    obtain ⟨i⟩ := v
    match i, hlt with
    | 0, _ => rfl
    | 1, _ => rfl

/-- The function built around an expression is verified. -/
theorem verified_buildSimFunc (e : Expr) : Verified (buildSimFunc e) entryBlock := by
  have h := yields_build Expr.sig e hasParams_entry
  refine (verified_build_iff h.builds).mpr ⟨?_, ?_⟩
  · rintro v (_ | ⟨_, hv⟩)
    · exact h.has.known
    · cases hv
  · rw [List.map_singleton, h.has.type]
    rfl

/-- The JIT and the simulator are given the same function. -/
theorem func_declareAndBuild {M E : Type} {impl : ModuleImpl M E} {module module' : M}
    {name : String} {linkage : Linkage} {e : Expr} {id : FuncId} {ctx : Context}
    (h : declareAndBuild impl module name linkage Expr.sig e.body = (module', .ok (id, ctx))) :
    ctx.func = buildSimFunc e := by
  unfold declareAndBuild at h
  split at h
  · cases h
  · cases h
    rfl

end LowerIrUtils.Export
