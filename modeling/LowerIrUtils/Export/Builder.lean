import LowerIrUtils.Export.Module

/-!
# Building a block

A `FunctionBuilder` of `cranelift_frontend` once more, now with what its function knows of
the types of values and with the block the builder is switched to.  Instructions are
appended to that block, and every constant has one result of the type it was asked for.

A builder only ever grows (`TypedBuilder.Extends`), and a function that is finished from it
has its instructions at the head of the block (`TypedBuilder.Finishes`).
-/

namespace LowerIrUtils.Export

open Clif

/-- A `FunctionBuilder` with the types of its values and the block it appends to. -/
structure TypedBuilder extends FunctionBuilder where
  valueType : Value → Ty
  /-- The instructions of the block the builder is switched to. -/
  blockInsts : List Inst

/-- `Imm64::mask_to_width`. -/
def maskToWidth (imm : BitVec 64) (bits : Nat) : BitVec 64 := (imm.setWidth bits).setWidth 64

namespace TypedBuilder

/-- Append an instruction with results of these types to the block. -/
def insert (bcx : TypedBuilder) (data : InstructionData) (tys : List Ty) : TypedBuilder × Inst :=
  let (builder, inst) := bcx.toFunctionBuilder.insert data tys.length
  ({ toFunctionBuilder := builder
     valueType := fun v ↦
      if v.index < bcx.numValues then bcx.valueType v
      else (tys[v.index - bcx.numValues]?).getD (bcx.valueType v)
     blockInsts := bcx.blockInsts ++ [inst] },
    inst)

/-- Append an instruction with one result, and give the result. -/
def insertOne (bcx : TypedBuilder) (data : InstructionData) (ty : Ty) : TypedBuilder × Value :=
  ((bcx.insert data [ty]).1, ⟨bcx.numValues⟩)

/-- `ins().iconst(ty, imm)`, which masks the immediate to the width of the type. -/
def iconst (bcx : TypedBuilder) (ty : Ty) (imm : BitVec 64) : TypedBuilder × Value :=
  bcx.insertOne (.unaryImm .iconst (maskToWidth imm ty.bits)) ty

/-- `ins().f32const(imm)`. -/
def f32const (bcx : TypedBuilder) (imm : BitVec 32) : TypedBuilder × Value :=
  bcx.insertOne (.unaryIeee32 .f32const imm) .F32

/-- `ins().f64const(imm)`. -/
def f64const (bcx : TypedBuilder) (imm : BitVec 64) : TypedBuilder × Value :=
  bcx.insertOne (.unaryIeee64 .f64const imm) .F64

/-- `ins().call(callee, args)`. -/
def insCall (bcx : TypedBuilder) (callee : FuncRef) (args : List Value) : TypedBuilder × Inst :=
  bcx.insert (.call .call args callee)
    ((bcx.extFuncs[callee.index]?).elim [] fun f ↦ f.2.returns)

/-- `declare_func_in_func`. -/
def declareFuncInFunc (bcx : TypedBuilder) (module : JITModule) (id : FuncId) :
    TypedBuilder × FuncRef :=
  let (builder, callee) := module.declareFuncInFunc id bcx.toFunctionBuilder
  ({ bcx with toFunctionBuilder := builder }, callee)

/-! ## Growing -/

/-- `bcx'` is `bcx` with more instructions and values. -/
structure Extends (bcx bcx' : TypedBuilder) : Prop where
  insts : bcx.insts <+: bcx'.insts
  numValues : bcx.numValues ≤ bcx'.numValues
  valueType : ∀ v : Value, v.index < bcx.numValues → bcx'.valueType v = bcx.valueType v
  blockInsts : bcx.blockInsts <+: bcx'.blockInsts

namespace Extends

variable {bcx bcx' bcx'' : TypedBuilder}

theorem refl (bcx : TypedBuilder) : bcx.Extends bcx :=
  ⟨List.prefix_rfl, Nat.le_refl _, fun _ _ ↦ rfl, List.prefix_rfl⟩

theorem trans (h : bcx.Extends bcx') (h' : bcx'.Extends bcx'') : bcx.Extends bcx'' where
  insts := h.insts.trans h'.insts
  numValues := Nat.le_trans h.numValues h'.numValues
  valueType v hv :=
    (h'.valueType v (Nat.lt_of_lt_of_le hv h.numValues)).trans (h.valueType v hv)
  blockInsts := h.blockInsts.trans h'.blockInsts

end Extends

theorem extends_insert (bcx : TypedBuilder) (data : InstructionData) (tys : List Ty) :
    bcx.Extends (bcx.insert data tys).1 where
  insts := List.prefix_append _ _
  numValues := Nat.le_add_right _ _
  valueType _ hv := if_pos hv
  blockInsts := List.prefix_append _ _

/-- The result has the type it was asked for. -/
theorem valueType_insertOne (bcx : TypedBuilder) (data : InstructionData) (ty : Ty) :
    (bcx.insertOne data ty).1.valueType (bcx.insertOne data ty).2 = ty := by
  simp [insertOne, insert]

theorem blockInsts_insertOne (bcx : TypedBuilder) (data : InstructionData) (ty : Ty) :
    (bcx.insertOne data ty).1.blockInsts = bcx.blockInsts ++ [⟨bcx.insts.length⟩] := rfl

/-! ## Finished functions -/

/-- `func` has the instructions and types of the builder, and `b` is the block the builder is
switched to.  There may be more of each. -/
structure Finishes (bcx : TypedBuilder) (func : Function) (b : Block) : Prop where
  insts : ∀ i data results, bcx.insts[i]? = some (data, results) →
    func.data ⟨i⟩ = data ∧ func.dfg.instResults ⟨i⟩ = results
  valueType : ∀ v : Value, v.index < bcx.numValues → func.dfg.valueType v = bcx.valueType v
  blockInsts : bcx.blockInsts <+: func.layout.blockInsts b

namespace Finishes

variable {bcx bcx' : TypedBuilder} {func : Function} {b : Block}

/-- A function finished from a later builder is finished from an earlier one. -/
theorem of_extends (h : bcx'.Finishes func b) (hext : bcx.Extends bcx') :
    bcx.Finishes func b where
  insts i data results hi := by
    obtain ⟨rest, hrest⟩ := hext.insts
    have hlt : i < bcx.insts.length := (List.getElem?_eq_some_iff.mp hi).1
    refine h.insts i data results ?_
    rw [← hrest, List.getElem?_append_left hlt]
    exact hi
  valueType v hv :=
    (h.valueType v (Nat.lt_of_lt_of_le hv hext.numValues)).trans (hext.valueType v hv)
  blockInsts := hext.blockInsts.trans h.blockInsts

/-- The instruction appended next is the next one of the block. -/
theorem instAt_insert {data : InstructionData} {tys : List Ty}
    (h : (bcx.insert data tys).1.Finishes func b) :
    func.instAt ⟨b, bcx.blockInsts.length⟩ = some (bcx.insert data tys).2 := by
  obtain ⟨rest, hrest⟩ := h.blockInsts
  show (func.layout.blockInsts b)[bcx.blockInsts.length]? = _
  rw [← hrest]
  show ((bcx.blockInsts ++ [_]) ++ rest)[bcx.blockInsts.length]? = _
  rw [List.append_assoc, List.getElem?_append_right (Nat.le_refl _), Nat.sub_self]
  rfl

theorem data_insert {data : InstructionData} {tys : List Ty}
    (h : (bcx.insert data tys).1.Finishes func b) : func.data (bcx.insert data tys).2 = data :=
  (h.insts bcx.insts.length data _ List.getElem?_concat_length).1

theorem instResults_insertOne {data : InstructionData} {ty : Ty}
    (h : (bcx.insertOne data ty).1.Finishes func b) :
    func.dfg.instResults (bcx.insert data [ty]).2 = [(bcx.insertOne data ty).2] :=
  (h.insts bcx.insts.length data _ List.getElem?_concat_length).2

theorem valueType_insertOne {data : InstructionData} {ty : Ty}
    (h : (bcx.insertOne data ty).1.Finishes func b) :
    func.dfg.valueType (bcx.insertOne data ty).2 = ty :=
  (h.valueType _ (Nat.lt_succ_self bcx.numValues)).trans
    (TypedBuilder.valueType_insertOne bcx data ty)

end Finishes

end TypedBuilder

end LowerIrUtils.Export
