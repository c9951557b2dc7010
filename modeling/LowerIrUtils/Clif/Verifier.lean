import LowerIrUtils.Clif.Function
import LowerIrUtils.Machine.Dominance

/-!
# Verified functions

The rules of Cranelift's verifier for the instructions the simulator supports.
`InstTyping` gives the operand and result types of an instruction, `Edge` the control
flow between program points, and `Verified` puts them together with the placement of
terminators and the dominance of uses by definitions.

A value is defined by an instruction or as a parameter of a block.  An alias is neither,
so no operand of a verified function is one.
-/

namespace LowerIrUtils.Clif

/-- The types of an address. -/
def Ty.isAddr : Ty → Bool
  | I32 | I64 => true
  | _ => false

/-! ## Types of instructions -/

/-- The branch passes values of the types of the parameters of its target. -/
structure BranchTyping (func : Function) (dest : BlockCall) : Prop where
  target : dest.block ∈ func.layout.blocks
  values : dest.args = dest.values.map .value
  types : dest.values.map func.dfg.valueType =
    (func.dfg.blockParams dest.block).map func.dfg.valueType

/-- `InstTyping func data tys`: the operands of `data` have types the opcode allows, and its
results have the types `tys`. -/
inductive InstTyping (func : Function) : InstructionData → List Ty → Prop
  | iconst {imm : BitVec 64} {ty : Ty} (hty : ty.isSimInt) :
      InstTyping func (.unaryImm .iconst imm) [ty]
  | f32const {imm : BitVec 32} : InstTyping func (.unaryIeee32 .f32const imm) [.F32]
  | f64const {imm : BitVec 64} : InstTyping func (.unaryIeee64 .f64const imm) [.F64]
  /-- Arithmetic, bitwise logic, and shifts by an amount of the type shifted. -/
  | intBinary {opcode : Opcode} {x y : Value} {ty : Ty} (hop : opcode.isIntBinary)
      (hx : func.dfg.valueType x = ty) (hy : func.dfg.valueType y = ty) (hty : ty.isSimInt) :
      InstTyping func (.binary opcode x y) [ty]
  | floatBinary {opcode : Opcode} {x y : Value} {ty : Ty} (hop : opcode.isFloatBinary)
      (hx : func.dfg.valueType x = ty) (hy : func.dfg.valueType y = ty) (hty : ty.isSimFloat) :
      InstTyping func (.binary opcode x y) [ty]
  | ineg {x : Value} {ty : Ty} (hx : func.dfg.valueType x = ty) (hty : ty.isSimInt) :
      InstTyping func (.unary .ineg x) [ty]
  | bnot {x : Value} {ty : Ty} (hx : func.dfg.valueType x = ty) (hty : ty.isSimInt) :
      InstTyping func (.unary .bnot x) [ty]
  | fneg {x : Value} {ty : Ty} (hx : func.dfg.valueType x = ty) (hty : ty.isSimFloat) :
      InstTyping func (.unary .fneg x) [ty]
  | uextend {x : Value} {ty : Ty} (hx : (func.dfg.valueType x).isSimInt) (hty : ty.isSimInt)
      (hbits : (func.dfg.valueType x).bits < ty.bits) : InstTyping func (.unary .uextend x) [ty]
  | sextend {x : Value} {ty : Ty} (hx : (func.dfg.valueType x).isSimInt) (hty : ty.isSimInt)
      (hbits : (func.dfg.valueType x).bits < ty.bits) : InstTyping func (.unary .sextend x) [ty]
  | ireduce {x : Value} {ty : Ty} (hx : (func.dfg.valueType x).isSimInt) (hty : ty.isSimInt)
      (hbits : ty.bits < (func.dfg.valueType x).bits) : InstTyping func (.unary .ireduce x) [ty]
  | bitcast {x : Value} {ty : Ty} (hx : (func.dfg.valueType x).isSim) (hty : ty.isSim)
      (hbits : (func.dfg.valueType x).bits = ty.bits) :
      InstTyping func (.loadNoOffset .bitcast x) [ty]
  | icmp {cond : IntCC} {x y : Value} {ty : Ty} (hx : func.dfg.valueType x = ty)
      (hy : func.dfg.valueType y = ty) (hty : ty.isSimInt) :
      InstTyping func (.intCompare .icmp cond x y) [.I8]
  | fcmp {cond : FloatCC} {x y : Value} {ty : Ty} (hx : func.dfg.valueType x = ty)
      (hy : func.dfg.valueType y = ty) (hty : ty.isSimFloat) :
      InstTyping func (.floatCompare .fcmp cond x y) [.I8]
  | select {c x y : Value} {ty : Ty} (hc : (func.dfg.valueType c).isSimInt)
      (hx : func.dfg.valueType x = ty) (hy : func.dfg.valueType y = ty) (hty : ty.isSim) :
      InstTyping func (.ternary .select c x y) [ty]
  | load {p : Value} {offset : BitVec 32} {ty : Ty} (hp : (func.dfg.valueType p).isAddr)
      (hty : ty.isSim) : InstTyping func (.load .load p offset) [ty]
  | store {x p : Value} {offset : BitVec 32} (hx : (func.dfg.valueType x).isSim)
      (hp : (func.dfg.valueType p).isAddr) : InstTyping func (.store .store x p offset) []
  | call {args : List Value} {funcRef : FuncRef} {tys : List Ty}
      (hargs : args.map func.dfg.valueType = (func.dfg.extFuncs funcRef).signature.params)
      (hreturns : tys = (func.dfg.extFuncs funcRef).signature.returns)
      (htys : ∀ ty ∈ tys, ty.isSim) : InstTyping func (.call .call args funcRef) tys
  | jump {dest : BlockCall} (hdest : BranchTyping func dest) :
      InstTyping func (.jump .jump dest) []
  | brif {c : Value} {thenDest elseDest : BlockCall} (hc : (func.dfg.valueType c).isSimInt)
      (hthen : BranchTyping func thenDest) (helse : BranchTyping func elseDest) :
      InstTyping func (.brif .brif c thenDest elseDest) []
  | return_ {args : List Value}
      (hargs : args.map func.dfg.valueType = func.signature.returns) :
      InstTyping func (.multiAry .return_ args) []

/-! ## Control flow -/

namespace Function

/-- Control can pass from the instruction at `p` to the point `q`. -/
inductive Edge (func : Function) (p : Point) : Point → Prop
  | fall {inst : Inst} (hinst : func.instAt p = some inst)
      (hterm : (func.data inst).isTerminator = false) : Edge func p ⟨p.block, p.index + 1⟩
  | branch {inst : Inst} {dest : BlockCall} (hinst : func.instAt p = some inst)
      (hdest : dest ∈ (func.data inst).destinations) : Edge func p ⟨dest.block, 0⟩

/-- The values that leaving a point defines: the results of its instruction. -/
def resultsAt (func : Function) (p : Point) : List Value :=
  (func.instAt p).elim [] func.dfg.instResults

/-- The values that entering a point defines: the parameters of a block, at its start. -/
def paramsAt (func : Function) (p : Point) : List Value :=
  if p.index = 0 then func.dfg.blockParams p.block else []

/-- The definition of `v` dominates the point `p`. -/
def DefDominates (func : Function) (entry : Block) (v : Value) (p : Point) : Prop :=
  (∃ d, v ∈ func.resultsAt d ∧ StrictlyDominates func.Edge ⟨entry, 0⟩ d p) ∨
    ∃ d, v ∈ func.paramsAt d ∧ Dominates func.Edge ⟨entry, 0⟩ d p

end Function

/-- What the verifier has checked of a function. -/
structure Verified (func : Function) (entry : Block) : Prop where
  isEntry : func.layout.entryBlock = some entry
  /-- The parameters of the entry block are those of the signature. -/
  entryParams : (func.dfg.blockParams entry).map func.dfg.valueType = func.signature.params
  /-- Each block ends in its only terminator. -/
  terminator : ∀ b ∈ func.layout.blocks, ∃ body last,
    func.layout.blockInsts b = body ++ [last] ∧ (func.data last).isTerminator ∧
      ∀ inst ∈ body, (func.data inst).isTerminator = false
  typed : ∀ b ∈ func.layout.blocks, ∀ inst ∈ func.layout.blockInsts b,
    InstTyping func (func.data inst) ((func.dfg.instResults inst).map func.dfg.valueType)
  /-- Each use is dominated by its definition. -/
  dominated : ∀ p inst, p.block ∈ func.layout.blocks → func.instAt p = some inst →
    ∀ v ∈ (func.data inst).operands, func.DefDominates entry v p

namespace Verified

variable {func : Function} {entry : Block}

theorem mem_blocks_of_entry (h : Verified func entry) : entry ∈ func.layout.blocks :=
  List.mem_of_mem_head? h.isEntry

theorem typed_instAt (h : Verified func entry) {p : Function.Point} {inst : Inst}
    (hp : p.block ∈ func.layout.blocks) (hinst : func.instAt p = some inst) :
    InstTyping func (func.data inst) ((func.dfg.instResults inst).map func.dfg.valueType) :=
  h.typed p.block hp inst (List.mem_of_getElem? hinst)

/-- A block has a first instruction. -/
theorem exists_instAt_zero (h : Verified func entry) {b : Block} (hb : b ∈ func.layout.blocks) :
    ∃ inst, func.instAt ⟨b, 0⟩ = some inst := by
  obtain ⟨body, last, hinsts, -⟩ := h.terminator b hb
  have hpos : 0 < (func.layout.blockInsts b).length := by
    rw [hinsts, List.length_append]
    exact Nat.lt_add_left body.length Nat.one_pos
  exact ⟨_, List.getElem?_eq_getElem hpos⟩

/-- An instruction that is no terminator has one after it. -/
theorem exists_instAt_succ (h : Verified func entry) {p : Function.Point} {inst : Inst}
    (hp : p.block ∈ func.layout.blocks) (hinst : func.instAt p = some inst)
    (hterm : (func.data inst).isTerminator = false) :
    ∃ inst', func.instAt ⟨p.block, p.index + 1⟩ = some inst' := by
  obtain ⟨body, last, hinsts, hlast, -⟩ := h.terminator p.block hp
  have hinst' : (body ++ [last])[p.index]? = some inst := hinsts ▸ hinst
  have hlt : p.index < body.length := by
    have hle : p.index < (body ++ [last]).length := (List.getElem?_eq_some_iff.mp hinst').1
    rw [List.length_append, List.length_singleton] at hle
    rcases Nat.lt_succ_iff_lt_or_eq.mp hle with hlt | heq
    · exact hlt
    · rw [heq, List.getElem?_concat_length] at hinst'
      cases hinst'
      rw [hlast] at hterm
      cases hterm
  have hsucc : p.index + 1 < (func.layout.blockInsts p.block).length := by
    rw [hinsts, List.length_append]
    exact Nat.add_lt_add_right hlt 1
  exact ⟨_, List.getElem?_eq_getElem hsucc⟩

end Verified

end LowerIrUtils.Clif
