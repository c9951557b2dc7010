import LowerIrUtils.Export.AbiAgreement
import LowerIrUtils.Export.Lower
import LowerIrUtils.Sim.Effect
import LowerIrUtils.Sim.Run
import Mathlib.Data.List.Forall2

/-!
# Signatures and lowered arguments

Four pieces of code must agree on what an argument is: `jit_signature!` and the helper
`signature` on the types of a call, `jit_call!` and the helper `call` on its values.  The
lanes of an argument are the common measure (`RustArg.lanes`): for a type with a
`JitParam` impl they have the types of its parameters, and the emitted constants are read
as the lanes when the call comes to be executed (`run_of_emits`).
-/

namespace LowerIrUtils.Export

open Clif Sim

/-! ## Types of lanes -/

/-- The type of a lane, where the values passed have the types `valueType`. -/
def Lane.ty (valueType : Value → Ty) : Lane → Ty
  | value v => valueType v
  | const x => x.ty

/-- A value that is passed on is one of the builder. -/
def Lane.KnownTo (bcx : TypedBuilder) : Lane → Prop
  | value v => v.index < bcx.numValues
  | const _ => True

/-- At every place `f` of the value is `g` of the lane, if the builder knows the lane. -/
def Matches {α : Type} (bcx : TypedBuilder) (f : Value → α) (g : Lane → α) (lanes : List Lane)
    (vs : List Value) : Prop :=
  List.Forall₂ (fun lane v ↦ lane.KnownTo bcx → f v = g lane) lanes vs

section

variable {bcx bcx' : TypedBuilder} {lane : Lane}

theorem Lane.KnownTo.of_extends (h : lane.KnownTo bcx) (hext : bcx.Extends bcx') :
    lane.KnownTo bcx' := by
  cases lane with
  | value v => exact Nat.lt_of_lt_of_le h hext.numValues
  | const x => trivial

/-- What is known of a lane's type stays. -/
theorem Lane.KnownTo.ty_eq (h : lane.KnownTo bcx) (hext : bcx.Extends bcx') :
    lane.ty bcx'.valueType = lane.ty bcx.valueType := by
  cases lane with
  | value v => exact hext.valueType v h
  | const x => rfl

namespace Matches

variable {α : Type} {f : Value → α} {g g' : Lane → α} {lanes : List Lane} {vs : List Value}

/-- A later builder knows more lanes. -/
theorem of_extends (h : Matches bcx' f g' lanes vs) (hext : bcx.Extends bcx')
    (hg : ∀ lane : Lane, lane.KnownTo bcx → g' lane = g lane) : Matches bcx f g lanes vs :=
  h.imp fun lane _ heq hknown ↦ (heq (hknown.of_extends hext)).trans (hg lane hknown)

theorem map_eq (h : Matches bcx f g lanes vs) (hknown : ∀ lane ∈ lanes, lane.KnownTo bcx) :
    vs.map f = lanes.map g := by
  unfold Matches at h
  induction h with
  | nil => rfl
  | cons hlane h ih =>
      have hrest := ih fun lane hmem ↦ hknown lane (List.mem_cons_of_mem _ hmem)
      rw [List.map_cons, List.map_cons, hlane (hknown _ List.mem_cons_self), hrest]

end Matches

end

namespace Emits

variable {bcx bcx' bcx'' : TypedBuilder} {lanes : List Lane} {vs : List Value}

theorem grows (h : Emits bcx lanes bcx' vs) : bcx.Extends bcx' := by
  induction h with
  | nil => exact .refl _
  | value h ih => exact ih
  | const hdata h ih => exact (TypedBuilder.extends_insert _ _ _).trans ih

/-- A value that is passed on stands at the place of its lane. -/
theorem getElem?_of_value (h : Emits bcx lanes bcx' vs) {i : Nat} {v : Value}
    (hi : lanes[i]? = some (.value v)) : vs[i]? = some v := by
  induction h generalizing i with
  | nil => cases hi
  | value h ih =>
      cases i with
      | zero =>
          cases hi
          rfl
      | succ i => exact ih hi
  | const hdata h ih =>
      cases i with
      | zero => cases hi
      | succ i => exact ih hi

/-- The values have the types of their lanes, and keep them. -/
theorem matches_valueType (h : Emits bcx lanes bcx' vs) (hext : bcx'.Extends bcx'') :
    Matches bcx bcx''.valueType (Lane.ty bcx.valueType) lanes vs := by
  induction h with
  | nil => exact .nil
  | value h ih => exact .cons (fun hknown ↦ (h.grows.trans hext).valueType _ hknown) (ih hext)
  | @const bcx bcx' data x lanes vs hdata h ih =>
      have hone : bcx.Extends (bcx.insertOne data x.ty).1 := TypedBuilder.extends_insert _ _ _
      refine .cons (fun _ ↦ ?_) ((ih hext).of_extends hone fun lane hknown ↦ hknown.ty_eq hone)
      rw [(h.grows.trans hext).valueType _ (Nat.lt_succ_self _), TypedBuilder.valueType_insertOne]
      rfl

end Emits

/-! ## Running the constants -/

/-- What is read for a lane: the value passed as it was before, or the constant. -/
def Lane.read (registers : Registers) : Lane → Option SimValue
  | value v => registers v
  | const x => some x

section

variable [RustCore] {func : Function} {b : Block}

theorem compute_of_denotes {data : InstructionData} {x : SimValue} (h : Denotes data x)
    {state : RunState} {inst : Inst} (hty : resultTy func inst 0 = some x.ty) :
    compute func state inst data = .ok x := by
  cases h with
  | iconst h => simp only [compute, hty, Option.getD_some, h]
  | f32const x => rfl
  | f64const x => rfl

/-- A constant is computed by the arms of `step` that give one value. -/
theorem step_of_denotes {data : InstructionData} {x : SimValue} (h : Denotes data x)
    {state : RunState} {inst : Inst} (hty : resultTy func inst 0 = some x.ty) :
    step func state inst data = (bindResults func inst data.opcode [x] state, .continue_) := by
  have hcompute : compute func state inst data = .ok x := compute_of_denotes h hty
  have hstep : step func state inst data = computeStep func state inst data := by
    cases h <;> rfl
  rw [hstep, computeStep, hcompute]

/-- The next instruction of the block is the constant, and it binds its result. -/
theorem next_of_denotes {bcx : TypedBuilder} {data : InstructionData} {x : SimValue}
    (h : Denotes data x) (hfin : (bcx.insertOne data x.ty).1.Finishes func b)
    (state : RunState) :
    ∃ state', (machine func).next ⟨.running ⟨b, bcx.blockInsts.length⟩, state⟩ =
        ⟨.running ⟨b, (bcx.insertOne data x.ty).1.blockInsts.length⟩, state'⟩ ∧
      state'.registers = state.registers.insert (bcx.insertOne data x.ty).2 x ∧
      state'.memory = state.memory := by
  have hresults := hfin.instResults_insertOne
  have hty : resultTy func (bcx.insert data [x.ty]).2 0 = some x.ty := by
    rw [resultTy, hresults]
    exact congrArg some hfin.valueType_insertOne
  refine ⟨bindResults func (bcx.insert data [x.ty]).2 data.opcode [x] state, ?_, ?_,
    memory_bindResults _ _ _ _ _⟩
  · rw [next_of_instAt rfl hfin.instAt_insert, hfin.data_insert, step_of_denotes h hty,
      TypedBuilder.blockInsts_insertOne, List.length_append]
    rfl
  · rw [registers_bindResults, hresults]
    rfl

/-- Executing what was emitted for the lanes leads to the next instruction of the block,
where the values read as their lanes and the values of the builder as before. -/
theorem run_of_emits {bcx bcx' : TypedBuilder} {lanes : List Lane} {vs : List Value}
    (h : Emits bcx lanes bcx' vs) (hfin : bcx'.Finishes func b) (state : RunState) :
    ∃ k state', (machine func).after k ⟨.running ⟨b, bcx.blockInsts.length⟩, state⟩ =
        ⟨.running ⟨b, bcx'.blockInsts.length⟩, state'⟩ ∧
      Matches bcx state'.registers (Lane.read state.registers) lanes vs ∧
      (∀ v : Value, v.index < bcx.numValues → state'.registers v = state.registers v) ∧
      state'.memory = state.memory := by
  induction h generalizing state with
  | nil => exact ⟨0, state, rfl, .nil, fun _ _ ↦ rfl, rfl⟩
  | value h ih =>
      obtain ⟨k, state', hafter, hread, hframe, hmem⟩ := ih hfin state
      exact ⟨k, state', hafter, .cons (fun hknown ↦ hframe _ hknown) hread, hframe, hmem⟩
  | @const bcx bcx' data x lanes vs hdata h ih =>
      have hone : bcx.Extends (bcx.insertOne data x.ty).1 := TypedBuilder.extends_insert _ _ _
      obtain ⟨state₁, hnext, hregs₁, hmem₁⟩ :=
        next_of_denotes hdata (hfin.of_extends h.grows) state
      obtain ⟨k, state', hafter, hread, hframe, hmem⟩ := ih hfin state₁
      -- the fresh result is none of the values of the builder
      have hold (v : Value) (hv : v.index < bcx.numValues) :
          state₁.registers v = state.registers v := by
        have hne : v ≠ (bcx.insertOne data x.ty).2 := by
          rintro rfl
          exact Nat.lt_irrefl _ hv
        rw [hregs₁, Env.insert_of_ne _ _ hne]
      refine ⟨k + 1, state', ?_, .cons (fun _ ↦ ?_) (hread.of_extends hone ?_), ?_,
        hmem.trans hmem₁⟩
      · rw [Machine.after_succ, hnext, hafter]
      · rw [hframe _ (Nat.lt_succ_self _), hregs₁, Env.insert_same]
        rfl
      · rintro (v | y) hknown
        · exact hold v hknown
        · rfl
      · intro v hv
        rw [hframe v (Nat.lt_succ_of_lt hv), hold v hv]

end

/-! ## The call -/

section

variable [RustCore]

/-- `Passes bcx lanes r callee vs`: from `bcx` on, constants and a call of `callee` have been
emitted, and the arguments `vs` of the call are those of the lanes. -/
structure Passes (bcx : TypedBuilder) (lanes : List Lane) (r : TypedBuilder × Inst)
    (callee : FuncRef) (vs : List Value) : Prop where
  call : ∃ results, r.1.insts[r.2.index]? = some (.call .call vs callee, results)
  /-- A value that is passed on is the argument itself. -/
  values : ∀ (i : Nat) (v : Value), lanes[i]? = some (.value v) → vs[i]? = some v
  types : Matches bcx r.1.valueType (Lane.ty bcx.valueType) lanes vs
  /-- A run that comes to the first of the instructions emitted comes to the call, and there
  every argument holds what its lane does; so that is what the call reads, if the values
  passed on are values of the builder that are bound. -/
  run : ∀ func b, r.1.Finishes func b → ∀ state : RunState, ∃ k p state',
    (machine func).after k ⟨.running ⟨b, bcx.blockInsts.length⟩, state⟩ =
        ⟨.running p, state'⟩ ∧
      func.instAt p = some r.2 ∧ func.data r.2 = .call .call vs callee ∧
      Matches bcx state'.registers (Lane.read state.registers) lanes vs ∧
      ∀ xs, (∀ lane ∈ lanes, lane.KnownTo bcx) →
        lanes.map (Lane.read state.registers) = xs.map some → state'.getAll vs = .ok xs

theorem passes_insCall {bcx bcx' : TypedBuilder} {lanes : List Lane} {vs : List Value}
    (h : Emits bcx lanes bcx' vs) (callee : FuncRef) :
    Passes bcx lanes (bcx'.insCall callee vs) callee vs where
  call := ⟨_, List.getElem?_concat_length⟩
  values _ _ := h.getElem?_of_value
  types := h.matches_valueType (TypedBuilder.extends_insert bcx' _ _)
  run := by
    intro func b hfin state
    obtain ⟨k, state', hafter, hread, -⟩ :=
      run_of_emits h (hfin.of_extends (TypedBuilder.extends_insert bcx' _ _)) state
    refine ⟨k, _, state', hafter, hfin.instAt_insert, hfin.data_insert, hread, ?_⟩
    intro xs hknown hxs
    have hvalues := (hread.map_eq hknown).trans hxs
    exact RunState.getAll_eq_ok_iff.mpr (Env.lookupAll_eq_ok_iff.mpr hvalues)

variable {C : Chrono} (bcx : TypedBuilder) (args : List (RustArg C))

theorem passes_jitCall (callee : FuncRef) :
    Passes bcx (args.flatMap RustArg.lanes) (jitCall bcx .I64 callee args) callee
      (RustArg.lowerAll .I64 args bcx []).2 := by
  obtain ⟨vs, hout, hemits⟩ := RustArg.appends_lowerAll args bcx []
  rw [List.nil_append] at hout
  subst hout
  exact passes_insCall hemits callee

/-- Importing the callee first changes nothing in that. -/
theorem passes_helperCall {module : JITModule} (hptr : module.pointerType = .I64) (id : FuncId) :
    ∃ callee vs, Passes bcx (args.flatMap RustArg.lanes) (helperCall bcx module id args)
      callee vs := by
  obtain ⟨vs, hout, hemits⟩ :=
    RustArg.appends_lowerAll args (bcx.declareFuncInFunc module id).1 []
  rw [List.nil_append] at hout
  have hcall := passes_insCall hemits (bcx.declareFuncInFunc module id).2
  subst hout
  have heq : helperCall bcx module id args =
      (RustArg.lowerAll .I64 args (bcx.declareFuncInFunc module id).1 []).1.insCall
        (bcx.declareFuncInFunc module id).2
        (RustArg.lowerAll .I64 args (bcx.declareFuncInFunc module id).1 []).2 := by
    rw [helperCall, hptr]
  rw [heq]
  exact ⟨_, _, hcall.call, hcall.values, hcall.types, hcall.run⟩

end

/-! ## The signatures -/

/-- `jit_signature!`. -/
def jitSignature (scope : Scope) (ptrTy : Ty) (params : List TypeExpr) (ret : Option TypeExpr) :
    Option Signature := do
  let params ← pushParams scope noGenerics ptrTy params
  let returns ← pushParams scope noGenerics ptrTy ret.toList
  some ⟨params, returns⟩

namespace RustArg

variable {C : Chrono}

/-- The type of an argument, if it is one with a `JitParam` impl as well. -/
def rustTy : RustArg C → Option (RustTy Empty)
  | scalar s _ => some (.scalar s)
  | pointer kind pointee _ _ => some (.pointer kind pointee)
  | _ => none

/-- The parameters of the type of an argument are the types of its lanes. -/
theorem jitParam_rustTy {arg : RustArg C} {t : RustTy Empty} (h : arg.rustTy = some t)
    (valueType : Value → Ty) :
    t.jitParam .I64 = some (arg.lanes.map (Lane.ty valueType)) := by
  cases arg with
  | scalar s x =>
      cases h
      cases s <;> rfl
  | pointer kind pointee sized addr =>
      cases h
      exact if_pos sized
  | _ => cases h

/-- The types of the arguments, as they are written in the scope of a signature. -/
structure TypedAs (args : List (RustArg C)) (scope : Scope) (tys : List TypeExpr) : Prop where
  resolve : tys.map (TypeExpr.resolve scope noGenerics) = args.map rustTy
  native : ∀ arg ∈ args, arg.rustTy.isSome

/-- Such arguments pass on no values. -/
theorem TypedAs.knownTo {args : List (RustArg C)} {scope : Scope} {tys : List TypeExpr}
    (h : TypedAs args scope tys) (bcx : TypedBuilder) :
    ∀ lane ∈ args.flatMap lanes, lane.KnownTo bcx := by
  intro lane hlane
  obtain ⟨arg, harg, hlane⟩ := List.mem_flatMap.mp hlane
  have hnative := h.native arg harg
  cases arg with
  | scalar s x =>
      cases List.mem_singleton.mp hlane
      trivial
  | pointer kind pointee sized addr =>
      cases List.mem_singleton.mp hlane
      trivial
  | _ => cases hnative

/-- The parameters that types push are the types of the lanes of their arguments. -/
theorem TypedAs.pushParams {args : List (RustArg C)} {scope : Scope} {tys : List TypeExpr}
    (h : TypedAs args scope tys) (valueType : Value → Ty) :
    pushParams scope noGenerics .I64 tys =
      some ((args.flatMap lanes).map (Lane.ty valueType)) := by
  obtain ⟨hresolve, hnative⟩ := h
  induction args generalizing tys with
  | nil =>
      rw [List.map_nil, List.map_eq_nil_iff] at hresolve
      subst hresolve
      rfl
  | cons arg args ih =>
      cases tys with
      | nil => cases hresolve
      | cons ty tys =>
          obtain ⟨hty, htys⟩ := List.cons.inj hresolve
          obtain ⟨t, ht⟩ := Option.isSome_iff_exists.mp (hnative arg List.mem_cons_self)
          have hfirst : Export.lanes scope noGenerics .I64 ty =
              some (arg.lanes.map (Lane.ty valueType)) :=
            lanes_eq_some_iff.mpr ⟨t, hty.trans ht, jitParam_rustTy ht valueType⟩
          have hrest := ih htys fun a ha ↦ hnative a (List.mem_cons_of_mem arg ha)
          simp only [Export.pushParams, hfirst, hrest, Option.bind_eq_bind, Option.bind_some,
            List.flatMap_cons, List.map_append]

end RustArg

/-- The helper `signature` of an exported function pushes the same parameters. -/
theorem Exported.params_of_typedAs (f : Exported) {C : Chrono} {args : List (RustArg C)}
    (h : RustArg.TypedAs args f.scope f.out.paramTypes) (valueType : Value → Ty) :
    (f.signature .I64).params = (args.flatMap RustArg.lanes).map (Lane.ty valueType) := by
  obtain ⟨-, hparamTypes, -⟩ := expandJitExport_ok f.accepted
  obtain ⟨hparams, -⟩ := (signature_eq_some_iff f.accepted).mp (f.compiles .I64)
  have hnative := h.pushParams valueType
  rw [hparamTypes] at hnative
  have hdef : ∀ ty ∈ f.input.paramTypes, (ty.resolve f.scope noGenerics).isSome := by
    intro ty hty
    rw [← hparamTypes] at hty
    have hmem := List.mem_map_of_mem (f := TypeExpr.resolve f.scope noGenerics) hty
    rw [h.resolve] at hmem
    obtain ⟨arg, harg, heq⟩ := List.mem_map.mp hmem
    rw [← heq]
    exact h.native arg harg
  rcases pushParams_helper hdef hparams with ⟨hsame, -⟩ | ⟨hnone, -⟩
  · rw [hsame] at hnative
    exact Option.some.inj hnative
  · rw [hnone] at hnative
    cases hnative

/-! ## Agreement -/

/-- **Signatures and arguments agree.**  On a 64-bit host, `jit_call!` and the helper `call`
lower a list of arguments to the lanes of each in turn, append them to what is in the
buffer, and pass them in a call that reads every constant as the value it stands for.  Where
the arguments have types with a `JitParam` impl as well, `jit_signature!` has for parameters
exactly the types of the arguments passed, and so has the helper `signature` if these are
the types of the function. -/
theorem call_agrees [RustCore] {C : Chrono} (f : Exported) {module : JITModule}
    (hptr : module.pointerType = .I64) (id : FuncId) (callee : FuncRef) (args : List (RustArg C))
    (bcx : TypedBuilder) :
    ∃ vs callee' vs',
      (∀ out, (RustArg.lowerAll .I64 args bcx out).2 = out ++ vs) ∧
      Passes bcx (args.flatMap RustArg.lanes) (jitCall bcx .I64 callee args) callee vs ∧
      (f.call module id (args.map RustArg.jitArg) bcx.toFunctionBuilder).1 =
        (helperCall bcx module id args).1.toFunctionBuilder ∧
      Passes bcx (args.flatMap RustArg.lanes) (helperCall bcx module id args) callee' vs' ∧
      ∀ scope tys, RustArg.TypedAs args scope tys → ∃ params,
        (∀ ret returns, pushParams scope noGenerics .I64 ret.toList = some returns →
          jitSignature scope .I64 tys ret = some ⟨params, returns⟩) ∧
        (scope = f.scope → tys = f.out.paramTypes → (f.signature .I64).params = params) ∧
        vs.map (jitCall bcx .I64 callee args).1.valueType = params ∧
        vs'.map (helperCall bcx module id args).1.valueType = params := by
  have hjit := passes_jitCall bcx args callee
  obtain ⟨callee', vs', hhelper⟩ := passes_helperCall bcx args hptr id
  refine ⟨_, callee', vs', ?_, hjit, ?_, hhelper, ?_⟩
  · intro out
    rw [RustArg.lowerAll_eq_append]
  · have hemit := emitCall_jitArg bcx module id args
    simp only [Exported.call, hemit]
    split <;> rfl
  · intro scope tys htyped
    have hknown := htyped.knownTo bcx
    refine ⟨_, ?_, ?_, hjit.types.map_eq hknown, hhelper.types.map_eq hknown⟩
    · intro ret returns hret
      simp only [jitSignature, htyped.pushParams bcx.valueType, hret, Option.bind_eq_bind,
        Option.bind_some]
    · rintro rfl rfl
      exact f.params_of_typedAs htyped bcx.valueType

/-! ## A byte and a pointer -/

section

local instance callFmt : RustCore := .blank

/-- No dates and times. -/
def Chrono.absent : Chrono where
  NaiveDate := Empty
  NaiveTime := Empty
  NaiveDateTime := Empty
  numDaysFromCe := nofun
  numSecondsFromMidnight := nofun
  nanosecond := nofun
  date := nofun
  time := nofun
  fromNumDaysFromCeOpt _ := none
  fromNumSecondsFromMidnightOpt _ _ := none
  andTime := nofun

/-- `fn put(byte: u8, p: *const i64)`. -/
def put : Exported where
  path := []
  input := ⟨"put", false, none,
    [.typed (.path "u8" (n := 0) Fin.elim0), .typed (.ptr false (.path "i64" (n := 0) Fin.elim0))],
    .default⟩
  out := ⟨_, _, _, _, _⟩
  accepted := rfl
  scope := fun _ ↦ none
  signature := fun ptrTy ↦ ⟨[.I8, ptrTy], []⟩
  compiles := fun _ ↦ rfl
  symbolAddr := 0

/-- The byte 200 and the address 4096. -/
def putArgs : List (RustArg .absent) :=
  [.scalar .u8 (200#8), .pointer .constPtr (.scalar .i64) rfl 4096]

/-- A builder that has imported `put` and emitted nothing. -/
def TypedBuilder.fresh : TypedBuilder :=
  ⟨⟨[], 0, [(⟨0⟩, put.signature .I64)]⟩, fun _ ↦ .I64, []⟩

/-- The function that calls `put`:
```
v0 = iconst.i8 200;  v1 = iconst.i64 4096;  call put(v0, v1)
``` -/
def putCaller : Function :=
  .ofTables ⟨[], []⟩
    [(.unaryImm .iconst 200, [⟨0⟩]), (.unaryImm .iconst 4096, [⟨1⟩]),
      (.call .call [⟨0⟩, ⟨1⟩] ⟨0⟩, [])]
    [([], [⟨0⟩, ⟨1⟩, ⟨2⟩])] [.I8, .I64] [] [⟨"u0:0", ⟨[.I8, .I64], []⟩⟩]

theorem finishes_putCaller :
    (jitCall .fresh .I64 ⟨0⟩ putArgs).1.Finishes putCaller ⟨0⟩ where
  insts := by
    intro i data results hi
    match i with
    | 0 | 1 | 2 =>
        cases hi
        exact ⟨rfl, rfl⟩
    | i + 3 => cases hi
  valueType := by
    rintro ⟨i⟩ hi
    match i with
    | 0 | 1 => rfl
    | i + 2 => exact absurd hi (Nat.not_lt.mpr (Nat.le_add_left 2 i))
  blockInsts := List.prefix_rfl

/-- The values of the byte and the pointer have the types of the parameters of `put`, and a run
comes to the call with the byte and the address. -/
theorem call_agrees_put :
    (RustArg.lowerAll .I64 putArgs .fresh []).2.map
        (jitCall .fresh .I64 ⟨0⟩ putArgs).1.valueType = (put.signature .I64).params ∧
      ∃ k p state', (machine putCaller).after k
          ⟨.running ⟨⟨0⟩, 0⟩, ⟨.empty, .empty, [], false⟩⟩ = ⟨.running p, state'⟩ ∧
        putCaller.instAt p = some ⟨2⟩ ∧
        state'.getAll [⟨0⟩, ⟨1⟩] = .ok [.I8 200, .I64 4096] := by
  have hptr : (JITModule.new ⟨.empty⟩ .I64).pointerType = .I64 := rfl
  obtain ⟨vs, _, _, hout, hpasses, -, -, htyped⟩ := call_agrees put hptr ⟨0⟩ ⟨0⟩ putArgs .fresh
  have htypedAs : RustArg.TypedAs putArgs put.scope put.out.paramTypes :=
    ⟨rfl, by simp [putArgs, RustArg.rustTy]⟩
  obtain ⟨params, -, hparams, htypes, -⟩ := htyped put.scope put.out.paramTypes htypedAs
  obtain rfl : [⟨0⟩, ⟨1⟩] = vs := hout []
  obtain ⟨k, p, state', hafter, hinst, -, -, hread⟩ :=
    hpasses.run putCaller ⟨0⟩ finishes_putCaller ⟨.empty, .empty, [], false⟩
  refine ⟨?_, k, p, state', hafter, hinst, hread _ (htypedAs.knownTo .fresh) rfl⟩
  rw [hout, List.nil_append, htypes, hparams rfl rfl]

end

end LowerIrUtils.Export
