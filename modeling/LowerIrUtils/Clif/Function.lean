import LowerIrUtils.Clif.Types

/-!
# Functions of the IR

`InstructionData` has one constructor per instruction format the simulator matches
on; every other format is `InstructionData.other`.  Pooled operand lists are lists
here, and the entity maps of the `DataFlowGraph` are total functions: an index that
was never allocated cannot be told from one that was.

A value may be an alias of another one (`DataFlowGraph.aliasOf`); `resolveAliases`
follows the chain as far as the number of values allows, which is Cranelift's own
guard against a cycle.
-/

namespace LowerIrUtils.Clif

/-- An argument of a branch: a value, or a placeholder that only `try_call` fills. -/
inductive BlockArg where
  | value (v : Value)
  | tryCallRet (index : Nat)
  | tryCallExn (index : Nat)
deriving DecidableEq, Repr

/-- `BlockArg::as_value`. -/
def BlockArg.asValue : BlockArg → Option Value
  | value v => some v
  | tryCallRet _ | tryCallExn _ => none

/-- A branch target with the arguments for its parameters. -/
structure BlockCall where
  block : Block
  args : List BlockArg
deriving DecidableEq, Repr

/-- The values among the arguments of a branch. -/
def BlockCall.values (dest : BlockCall) : List Value := dest.args.filterMap BlockArg.asValue

/-- Cranelift's `InstructionData`, one constructor per format. -/
inductive InstructionData where
  | unaryImm (opcode : Opcode) (imm : BitVec 64)
  | unaryIeee32 (opcode : Opcode) (imm : BitVec 32)
  | unaryIeee64 (opcode : Opcode) (imm : BitVec 64)
  | binary (opcode : Opcode) (x y : Value)
  | unary (opcode : Opcode) (arg : Value)
  | loadNoOffset (opcode : Opcode) (arg : Value)
  | intCompare (opcode : Opcode) (cond : IntCC) (x y : Value)
  | floatCompare (opcode : Opcode) (cond : FloatCC) (x y : Value)
  | ternary (opcode : Opcode) (c x y : Value)
  | load (opcode : Opcode) (arg : Value) (offset : BitVec 32)
  | store (opcode : Opcode) (x p : Value) (offset : BitVec 32)
  | jump (opcode : Opcode) (destination : BlockCall)
  | brif (opcode : Opcode) (arg : Value) (thenDest elseDest : BlockCall)
  | multiAry (opcode : Opcode) (args : List Value)
  | call (opcode : Opcode) (args : List Value) (funcRef : FuncRef)
  | other (opcode : Opcode) (args : List Value)
deriving DecidableEq, Repr

namespace InstructionData

/-- `InstructionData::opcode`. -/
def opcode : InstructionData → Opcode
  | unaryImm op _ | unaryIeee32 op _ | unaryIeee64 op _ | binary op _ _ | unary op _
  | loadNoOffset op _ | intCompare op _ _ _ | floatCompare op _ _ _ | ternary op _ _ _
  | load op _ _ | store op _ _ _ | jump op _ | brif op _ _ _ | multiAry op _
  | call op _ _ | other op _ => op

/-- The branch targets of a `jump` or `brif`. -/
def destinations : InstructionData → List BlockCall
  | jump _ dest => [dest]
  | brif _ _ thenDest elseDest => [thenDest, elseDest]
  | _ => []

/-- Every value operand, branch arguments included. -/
def operands : InstructionData → List Value
  | unaryImm .. | unaryIeee32 .. | unaryIeee64 .. => []
  | binary _ x y | intCompare _ _ x y | floatCompare _ _ x y => [x, y]
  | unary _ x | loadNoOffset _ x | load _ x _ => [x]
  | ternary _ c x y => [c, x, y]
  | store _ x p _ => [x, p]
  | jump _ dest => dest.values
  | brif _ c thenDest elseDest => c :: (thenDest.values ++ elseDest.values)
  | multiAry _ args | call _ args _ | other _ args => args

/-- The terminators the simulator executes. -/
def isTerminator : InstructionData → Bool
  | jump .. | brif .. => true
  | multiAry op _ => op = .return_
  | _ => false

/-- Replace every value operand. -/
def mapValues (g : Value → Value) : InstructionData → InstructionData
  | unaryImm op imm => unaryImm op imm
  | unaryIeee32 op imm => unaryIeee32 op imm
  | unaryIeee64 op imm => unaryIeee64 op imm
  | binary op x y => binary op (g x) (g y)
  | unary op x => unary op (g x)
  | loadNoOffset op x => loadNoOffset op (g x)
  | intCompare op cond x y => intCompare op cond (g x) (g y)
  | floatCompare op cond x y => floatCompare op cond (g x) (g y)
  | ternary op c x y => ternary op (g c) (g x) (g y)
  | load op x off => load op (g x) off
  | store op x p off => store op (g x) (g p) off
  | jump op dest => jump op (mapDest dest)
  | brif op c thenDest elseDest => brif op (g c) (mapDest thenDest) (mapDest elseDest)
  | multiAry op args => multiAry op (args.map g)
  | call op args fr => call op (args.map g) fr
  | other op args => other op (args.map g)
where
  /-- Replace the value arguments of a branch. -/
  mapDest (dest : BlockCall) : BlockCall :=
    { dest with args := dest.args.map fun
        | .value v => .value (g v)
        | arg => arg }

@[simp] theorem opcode_mapValues (g : Value → Value) (data : InstructionData) :
    (data.mapValues g).opcode = data.opcode := by
  cases data <;> rfl

@[simp] theorem values_mapDest (g : Value → Value) (dest : BlockCall) :
    (mapValues.mapDest g dest).values = dest.values.map g := by
  rcases dest with ⟨block, args⟩
  show (args.map _).filterMap BlockArg.asValue = (args.filterMap BlockArg.asValue).map g
  induction args with
  | nil => rfl
  | cons arg args ih =>
      cases arg with
      | value v => exact congrArg (g v :: ·) ih
      | tryCallRet index => exact ih
      | tryCallExn index => exact ih

/-- The operands of the instruction with every value replaced. -/
theorem operands_mapValues (g : Value → Value) (data : InstructionData) :
    (data.mapValues g).operands = data.operands.map g := by
  cases data <;> simp [mapValues, operands]

end InstructionData

/-- The types of a signature. -/
structure Signature where
  params : List Ty
  returns : List Ty
deriving DecidableEq, Repr

/-- An external function.  Its name is kept as the text it displays as. -/
structure ExtFuncData where
  name : String
  signature : Signature
deriving DecidableEq, Repr

/-- Cranelift's `DataFlowGraph`. -/
structure DataFlowGraph where
  insts : Inst → InstructionData
  instResults : Inst → List Value
  blockParams : Block → List Value
  valueType : Value → Ty
  /-- The value an alias stands for, and `none` for a value that is not an alias. -/
  aliasOf : Value → Option Value
  /-- The number of values allocated. -/
  numValues : Nat
  extFuncs : FuncRef → ExtFuncData

namespace DataFlowGraph

/-- Follow at most `fuel` aliases. -/
def followAliases (dfg : DataFlowGraph) : Nat → Value → Value
  | 0, v => v
  | fuel + 1, v =>
      match dfg.aliasOf v with
      | some original => followAliases dfg fuel original
      | none => v

/-- `DataFlowGraph::resolve_aliases`. -/
def resolveAliases (dfg : DataFlowGraph) (v : Value) : Value :=
  dfg.followAliases (dfg.numValues + 1) v

theorem followAliases_of_aliasOf_eq_none {dfg : DataFlowGraph} {v : Value}
    (h : dfg.aliasOf v = none) (fuel : Nat) : dfg.followAliases fuel v = v := by
  cases fuel with
  | zero => rfl
  | succ fuel => simp only [followAliases, h]

/-- A value that is no alias resolves to itself. -/
@[simp] theorem resolveAliases_of_aliasOf_eq_none {dfg : DataFlowGraph} {v : Value}
    (h : dfg.aliasOf v = none) : dfg.resolveAliases v = v :=
  followAliases_of_aliasOf_eq_none h _

end DataFlowGraph

/-- The order of blocks and of the instructions in them. -/
structure Layout where
  blocks : List Block
  blockInsts : Block → List Inst

/-- `Layout::entry_block`. -/
def Layout.entryBlock (layout : Layout) : Option Block := layout.blocks.head?

/-- Cranelift's `Function`. -/
structure Function where
  signature : Signature
  dfg : DataFlowGraph
  layout : Layout

namespace Function

/-- A program point: the next instruction of `block` to execute is number `index`. -/
structure Point where
  block : Block
  index : Nat
deriving DecidableEq, Repr

/-- The instruction at a program point. -/
def instAt (func : Function) (p : Point) : Option Inst :=
  (func.layout.blockInsts p.block)[p.index]?

/-- The data of an instruction. -/
def data (func : Function) (inst : Inst) : InstructionData := func.dfg.insts inst

/-- The function in which every operand is replaced by the value it resolves to. -/
def resolveAllAliases (func : Function) : Function :=
  { func with dfg := { func.dfg with
      insts := fun inst ↦ (func.dfg.insts inst).mapValues func.dfg.resolveAliases } }

/-- A function given by tables: the data and results of each instruction, the parameters
and instructions of each block in layout order, the type of each value, the aliases, and
the external functions. -/
def ofTables (signature : Signature) (insts : List (InstructionData × List Value))
    (blocks : List (List Value × List Inst)) (types : List Ty) (aliases : List (Value × Value))
    (extFuncs : List ExtFuncData) : Function where
  signature := signature
  dfg :=
    { insts := fun inst ↦ (insts[inst.index]?).elim (.other (.other "nop") []) Prod.fst
      instResults := fun inst ↦ (insts[inst.index]?).elim [] Prod.snd
      blockParams := fun block ↦ (blocks[block.index]?).elim [] Prod.fst
      valueType := fun v ↦ (types[v.index]?).getD .I64
      aliasOf := fun v ↦ aliases.lookup v
      numValues := types.length
      extFuncs := fun f ↦ (extFuncs[f.index]?).getD ⟨"", ⟨[], []⟩⟩ }
  layout :=
    { blocks := (List.range blocks.length).map Block.mk
      blockInsts := fun block ↦ (blocks[block.index]?).elim [] Prod.snd }

end Function

end LowerIrUtils.Clif
