import LowerIrUtils.Sim.Hexdump
import LowerIrUtils.Sim.TraceLines
import LowerIrUtils.Text.Report
import Mathlib.Data.List.TakeWhile

/-!
# The dump of a result

`SimResult::dump_to` of `src/sim.rs`, a line at a time, and a reader for it.  A dump has a section
for the trace, if there is one, one for the returned values, one for the registers in the order
of their values, the memory as `write_hexdump` prints it, and the error.

Nothing is lost in it (`dump_lossless`): the lines of the trace are never blank, an integer is
printed with its type, and the memory is read back.  Floats are known up to the text
Rust's core library gives to them.
-/

namespace LowerIrUtils.Sim

open Clif Bits Text

/-! ## The lines of the dump -/

/-- The registers in the order of a `BTreeMap`, where `numValues` is above all that are bound. -/
def Registers.entries (registers : Registers) (numValues : Nat) : List (Value × SimValue) :=
  (List.range numValues).filterMap fun i ↦ (registers ⟨i⟩).map (Prod.mk ⟨i⟩)

section

variable [RustCore]

/-- `ret[{i}] = {v}`. -/
def returnLine (i : Nat) (v : SimValue) : String :=
  let text := v.display
  s!"ret[{i}] = {text}"

/-- `{val:<4} = {sv}`, where `pad` is the number of blanks the `Display` of a value adds. -/
def registerLine (pad : Value → Nat) (entry : Value × SimValue) : String :=
  let name := entry.1.name
  let blanks := String.ofList (List.replicate (pad entry.1) ' ')
  let text := entry.2.display
  s!"{name}{blanks} = {text}"

/-- The title of the memory. -/
def memoryTitle (mem : List Byte) : String :=
  let len := mem.length
  let nonzero := (mem.filter (· ≠ 0)).length
  s!"=== Memory ({len} bytes, {nonzero} non-zero) ==="

/-- `SimResult::dump_to`. -/
def SimResult.dumpTo (r : SimResult) (numValues : Nat) (pad : Value → Nat) : List String :=
  (if r.trace.isEmpty then [] else "=== Trace ===" :: r.trace ++ [""]) ++
    (titled "=== Returns ===" (r.returns.mapIdx returnLine) ++
      (titled "=== Registers (SSA) ===" ((r.registers.entries numValues).map (registerLine pad)) ++
        memoryTitle r.memory.bytes :: (writeHexdump r.memory.bytes ++
          r.error.elim [] fun err ↦ ["", "=== Halted ===", err.display])))

end

/-! ## Reading it back -/

/-- What the text of a value tells. -/
inductive Shown where
  | int (ty : Ty) (n : Int)
  | float (ty : Ty) (text : String)
deriving DecidableEq

/-- What the text of a value tells. -/
def SimValue.shown [RustCore] : SimValue → Shown
  | .I8 x => .int .I8 x.toInt
  | .I16 x => .int .I16 x.toInt
  | .I32 x => .int .I32 x.toInt
  | .I64 x => .int .I64 x.toInt
  | .F32 x => .float .F32 (RustCore.f32 x)
  | .F64 x => .float .F64 (RustCore.f64 x)

/-- What a text in the brackets after a type tells. -/
def shownOf (ty : String) (inner : List Char) : Option Shown :=
  match ty with
  | "I8" => some (.int .I8 (readInt inner))
  | "I16" => some (.int .I16 (readInt inner))
  | "I32" => some (.int .I32 (readInt inner))
  | "I64" => some (.int .I64 (readInt inner))
  | "F32" => some (.float .F32 (.ofList inner))
  | "F64" => some (.float .F64 (.ofList inner))
  | _ => none

/-- Read a value: its type, and what is in brackets after it. -/
def readShown (cs : List Char) : Option Shown :=
  shownOf (.ofList (cs.takeWhile (· ≠ '('))) ((cs.dropWhile (· ≠ '(')).drop 1).dropLast

/-- Read what comes after the equals sign. -/
def readAssigned (line : String) : Option Shown :=
  readShown ((line.toList.dropWhile (· ≠ '=')).drop 2)

/-- Read a register. -/
def readRegister (line : String) : Option (Value × Shown) :=
  (readAssigned line).map (Prod.mk ⟨readNat ((line.toList.takeWhile (· ≠ ' ')).drop 1)⟩)

/-- A dump that has been read. -/
structure Dump where
  trace : List String
  returns : List Shown
  registers : List (Value × Shown)
  memory : List Byte
  error : Option String

/-- Read the trace, if there is one. -/
def readTrace : List String → List String × List String
  | [] => ([], [])
  | line :: lines =>
      if line = "=== Trace ===" then
        (lines.takeWhile (· ≠ ""), (lines.dropWhile (· ≠ "")).drop 1)
      else ([], line :: lines)

/-- Read a dump. -/
def readResult (lines : List String) : Option Dump := do
  let (trace, lines) := readTrace lines
  let (returns, lines) ← readSection "=== Returns ===" lines
  let (registers, lines) ← readSection "=== Registers (SSA) ===" lines
  let returns ← returns.mapM readAssigned
  let registers ← registers.mapM readRegister
  let memory ← readDump ((lines.drop 1).takeWhile (· ≠ ""))
  some ⟨trace, returns, registers, memory, ((lines.drop 1).dropWhile (· ≠ ""))[2]?⟩

/-! ## Values -/

theorem readShown_text (ty : List Char) (hty : ty.all (· ≠ '(') = true) (text : String) :
    readShown (String.ofList (ty ++ ['(']) ++ text ++ ")").toList =
      shownOf (.ofList ty) text.toList := by
  have hlist : (String.ofList (ty ++ ['(']) ++ text ++ ")").toList =
      ty ++ '(' :: (text.toList ++ [')']) := by
    rw [String.toList_append, String.toList_append, String.toList_ofList, List.append_assoc,
      List.append_assoc]
    rfl
  rw [hlist, readShown, takeWhile_append_cons (List.all_eq_true.mp hty) (by decide),
    dropWhile_append_cons (List.all_eq_true.mp hty) (by decide), List.drop_succ_cons,
    List.drop_zero, List.dropLast_concat]

variable [RustCore]

/-- The text of a value is read back. -/
theorem readShown_display (v : SimValue) : readShown v.display.toList = some v.shown := by
  cases v with
  | I8 x =>
      exact (readShown_text ['I', '8'] rfl (toString x.toInt)).trans
        (congrArg (fun n ↦ some (Shown.int .I8 n)) (readInt_toString _))
  | I16 x =>
      exact (readShown_text ['I', '1', '6'] rfl (toString x.toInt)).trans
        (congrArg (fun n ↦ some (Shown.int .I16 n)) (readInt_toString _))
  | I32 x =>
      exact (readShown_text ['I', '3', '2'] rfl (toString x.toInt)).trans
        (congrArg (fun n ↦ some (Shown.int .I32 n)) (readInt_toString _))
  | I64 x =>
      exact (readShown_text ['I', '6', '4'] rfl (toString x.toInt)).trans
        (congrArg (fun n ↦ some (Shown.int .I64 n)) (readInt_toString _))
  | F32 x =>
      exact (readShown_text ['F', '3', '2'] rfl (RustCore.f32 x)).trans
        (congrArg (fun s ↦ some (Shown.float .F32 s)) String.ofList_toList)
  | F64 x =>
      exact (readShown_text ['F', '6', '4'] rfl (RustCore.f64 x)).trans
        (congrArg (fun s ↦ some (Shown.float .F64 s)) String.ofList_toList)

/-- Values that show alike are equal, or floats of one type that have the same text. -/
theorem eq_or_float_of_shown_eq {x y : SimValue} (h : x.shown = y.shown) :
    x = y ∨ ∃ ty text, x.shown = .float ty text := by
  cases x with
  | I8 x =>
      cases y with
      | I8 y => exact .inl (congrArg SimValue.I8 (BitVec.eq_of_toInt_eq (Shown.int.inj h).2))
      | _ => cases h
  | I16 x =>
      cases y with
      | I16 y => exact .inl (congrArg SimValue.I16 (BitVec.eq_of_toInt_eq (Shown.int.inj h).2))
      | _ => cases h
  | I32 x =>
      cases y with
      | I32 y => exact .inl (congrArg SimValue.I32 (BitVec.eq_of_toInt_eq (Shown.int.inj h).2))
      | _ => cases h
  | I64 x =>
      cases y with
      | I64 y => exact .inl (congrArg SimValue.I64 (BitVec.eq_of_toInt_eq (Shown.int.inj h).2))
      | _ => cases h
  | F32 x | F64 x => exact .inr ⟨_, _, rfl⟩

/-! ## Lines -/

omit [RustCore] in
theorem append_ne_empty {s : String} (h : s ≠ "") (t : String) : s ++ t ≠ "" := by
  intro heq
  exact h (String.append_eq_empty_iff.mp heq).1

omit [RustCore] in
/-- A value is read after the first equals sign and a blank. -/
theorem readAssigned_of_toList {line : String} {before : List Char} {v : List Char}
    (hline : line.toList = before ++ '=' :: ' ' :: v)
    (hbefore : ∀ c ∈ before, decide (c ≠ '=') = true) : readAssigned line = readShown v := by
  rw [readAssigned, hline, dropWhile_append_cons hbefore (by decide), List.drop_succ_cons,
    List.drop_succ_cons, List.drop_zero]

omit [RustCore] in
/-- A numeral has no other characters than digits. -/
theorem ne_of_mem_repr {n : Nat} {c d : Char} (hd : d.isDigit = false) (h : c ∈ n.repr.toList) :
    decide (c ≠ d) = true := by
  refine decide_eq_true ?_
  rintro rfl
  rw [isDigit_of_mem_repr h] at hd
  cases hd

theorem readAssigned_returnLine (i : Nat) (v : SimValue) :
    readAssigned (returnLine i v) = some v.shown := by
  have hline : (returnLine i v).toList =
      ('r' :: 'e' :: 't' :: '[' :: (i.repr.toList ++ [']', ' '])) ++
        '=' :: ' ' :: v.display.toList := by
    show ("ret[" ++ i.repr ++ "] = " ++ v.display).toList = _
    rw [String.toList_append, String.toList_append, String.toList_append]
    simp
  refine (readAssigned_of_toList hline ?_).trans (readShown_display v)
  intro c hc
  simp only [List.mem_cons, List.mem_append, List.not_mem_nil, or_false] at hc
  rcases hc with rfl | rfl | rfl | rfl | hc | rfl | rfl
  case inr.inr.inr.inr.inl => exact ne_of_mem_repr rfl hc
  all_goals decide

theorem toList_registerLine (pad : Value → Nat) (v : Value) (x : SimValue) :
    (registerLine pad (v, x)).toList =
      ('v' :: v.index.repr.toList) ++
        ' ' :: (List.replicate (pad v) ' ' ++ '=' :: ' ' :: x.display.toList) := by
  show ("v" ++ v.index.repr ++ String.ofList (List.replicate (pad v) ' ') ++ " = " ++
    x.display).toList = _
  have hblank (rest : List Char) : List.replicate (pad v) ' ' ++ ' ' :: rest =
      ' ' :: (List.replicate (pad v) ' ' ++ rest) := by
    rw [← List.cons_append, ← List.replicate_succ, List.replicate_succ', List.append_assoc,
      List.singleton_append]
  simp only [String.toList_append, String.toList_ofList]
  simp [hblank]

omit [RustCore] in
/-- The name of a value has only digits after its first letter. -/
theorem ne_of_mem_name {n : Nat} {c d : Char} (hv : 'v' ≠ d) (hd : d.isDigit = false)
    (h : c ∈ 'v' :: n.repr.toList) : decide (c ≠ d) = true := by
  rcases List.mem_cons.mp h with rfl | h
  · exact decide_eq_true hv
  · exact ne_of_mem_repr hd h

theorem readAssigned_registerLine (pad : Value → Nat) (v : Value) (x : SimValue) :
    readAssigned (registerLine pad (v, x)) = some x.shown := by
  have hline := toList_registerLine pad v x
  rw [← List.cons_append, ← List.append_assoc, ← List.replicate_succ] at hline
  refine (readAssigned_of_toList hline ?_).trans (readShown_display x)
  intro c hc
  rcases List.mem_append.mp hc with hc | hc
  · exact ne_of_mem_name (by decide) rfl hc
  · rw [List.eq_of_mem_replicate hc]
    decide

theorem readRegister_registerLine (pad : Value → Nat) (entry : Value × SimValue) :
    readRegister (registerLine pad entry) = some (entry.1, entry.2.shown) := by
  obtain ⟨v, x⟩ := entry
  rw [readRegister, readAssigned_registerLine, toList_registerLine,
    takeWhile_append_cons (fun c ↦ ne_of_mem_name (by decide) rfl) (by decide),
    List.drop_succ_cons, List.drop_zero, readNat_repr]
  rfl

/-! ## The sections -/

omit [RustCore] in
theorem readDump_writeHexdump (mem : List Byte) : readDump (writeHexdump mem) = some mem := by
  have hcollapsed : Collapsed 16 0 none (chunks 16 mem) _ :=
    collapsed_collapse (keepsLast_chunks mem) none
  have hdump : writeHexdump mem = _ :=
    hexdumpLoop_eq fun _ ↦ length_of_mem_dropLast_chunks (by decide)
  have hread := mapM_readLine_lineText fun addr bytes h ↦
    length_le_of_mem_chunks (hcollapsed.mem_of_row_mem h)
  rw [readDump, hdump, hread, Option.bind_eq_bind, Option.bind_some,
    hcollapsed.restore_eq (by decide), Option.bind_eq_bind, Option.bind_some,
    flatten_chunks (by decide)]

omit [RustCore] in
theorem lineText_ne_empty (line : Line (List Byte)) : lineText line ≠ "" := by
  cases line with
  | star => decide
  | row addr bytes =>
      intro h
      have hcolon : ':' ∈ (writeHexdumpRow addr bytes).toList := by
        rw [writeHexdumpRow, String.toList_ofList]
        simp
      rw [show writeHexdumpRow addr bytes = "" from h] at hcolon
      cases hcolon

omit [RustCore] in
theorem ne_empty_of_mem_writeHexdump {mem : List Byte} {line : String}
    (h : line ∈ writeHexdump mem) : line ≠ "" := by
  rw [writeHexdump, hexdumpLoop_eq fun _ ↦ length_of_mem_dropLast_chunks (by decide)] at h
  obtain ⟨row, -, rfl⟩ := List.mem_map.mp h
  exact lineText_ne_empty row

omit [RustCore] in
/-- The trace is read back, if none of its lines is blank and no trace follows. -/
theorem readTrace_append {trace : List String} (h : ∀ line ∈ trace, line ≠ "")
    {rest : List String} (hrest : readTrace rest = ([], rest)) :
    readTrace ((if trace.isEmpty then [] else "=== Trace ===" :: trace ++ [""]) ++ rest) =
      (trace, rest) := by
  cases trace with
  | nil => exact hrest
  | cons line trace =>
      have hlines : ∀ l ∈ line :: trace, decide (l ≠ "") = true := fun l hl ↦
        decide_eq_true (h l hl)
      rw [List.isEmpty_cons, if_neg Bool.false_ne_true, List.cons_append, List.cons_append,
        List.append_assoc, List.singleton_append, readTrace, if_pos rfl,
        takeWhile_append_cons hlines (by decide), dropWhile_append_cons hlines (by decide)]
      rfl

omit [RustCore] in
theorem readTrace_titled {title : String} (h : title ≠ "=== Trace ===")
    (entries rest : List String) :
    readTrace (titled title entries ++ rest) = ([], titled title entries ++ rest) := by
  rw [titled, List.cons_append, List.cons_append, readTrace, if_neg h]

omit [RustCore] in
/-- A section of values is read back. -/
theorem readSection_of_readAssigned {entries : List String}
    (h : ∀ entry ∈ entries, (readAssigned entry).isSome) (title : String) (rest : List String) :
    readSection title (titled title entries ++ rest) = some (entries, rest) := by
  apply readSection_titled
  · rintro entry hentry rfl
    cases h "" hentry
  · rintro rfl
    cases h noEntries List.mem_cons_self

omit [RustCore] in
/-- The entries of a register file are the registers that are bound. -/
theorem mem_entries {registers : Registers} {n : Nat} (hn : ∀ v, n ≤ v.index → registers v = none)
    {v : Value} {x : SimValue} : (v, x) ∈ registers.entries n ↔ registers v = some x := by
  unfold Registers.entries
  rw [List.mem_filterMap]
  constructor
  · rintro ⟨i, -, h⟩
    obtain ⟨x', hx', heq⟩ := Option.map_eq_some_iff.mp h
    cases heq
    exact hx'
  · intro h
    refine ⟨v.index, List.mem_range.mpr ?_, Option.map_eq_some_iff.mpr ⟨x, h, rfl⟩⟩
    by_contra hlt
    rw [hn v (Nat.le_of_not_lt hlt)] at h
    cases h

omit [RustCore] in
theorem pairwise_entries (registers : Registers) (n : Nat) :
    (registers.entries n).Pairwise fun x y ↦ x.1.index < y.1.index := by
  unfold Registers.entries
  rw [List.pairwise_filterMap]
  refine List.pairwise_lt_range.imp ?_
  rintro i j hlt ⟨v, x⟩ hi ⟨u, y⟩ hj
  obtain ⟨_, -, heq⟩ := Option.map_eq_some_iff.mp hi
  obtain ⟨_, -, heq'⟩ := Option.map_eq_some_iff.mp hj
  cases heq
  cases heq'
  exact hlt

/-- What a dump says of a result. -/
structure Dump.Describes (d : Dump) (r : SimResult) : Prop where
  trace : d.trace = r.trace
  returns : d.returns = r.returns.map SimValue.shown
  registers : ∀ v s, (v, s) ∈ d.registers ↔ ∃ x, r.registers v = some x ∧ x.shown = s
  sorted : d.registers.Pairwise fun x y ↦ x.1.index < y.1.index
  memory : d.memory = r.memory.bytes
  error : d.error = r.error.map SimError.display

/-- A result is read back from its dump, if no line of its trace is blank. -/
theorem readResult_dumpTo {r : SimResult} (htrace : ∀ line ∈ r.trace, line ≠ "") {n : Nat}
    (hn : ∀ v, n ≤ v.index → r.registers v = none) (pad : Value → Nat) :
    ∃ d, readResult (r.dumpTo n pad) = some d ∧ d.Describes r := by
  have hreturns : ∀ entry ∈ r.returns.mapIdx returnLine, (readAssigned entry).isSome := by
    intro entry hentry
    obtain ⟨i, hi, rfl⟩ := List.mem_mapIdx.mp hentry
    rw [readAssigned_returnLine]
    rfl
  have hregisters : ∀ entry ∈ (r.registers.entries n).map (registerLine pad),
      (readAssigned entry).isSome := by
    intro entry hentry
    obtain ⟨⟨v, x⟩, -, rfl⟩ := List.mem_map.mp hentry
    rw [readAssigned_registerLine]
    rfl
  have hreadReturns : (r.returns.mapIdx returnLine).mapM readAssigned =
      some (r.returns.map SimValue.shown) := by
    have hline : ∀ p ∈ r.returns.zipIdx, readAssigned (returnLine p.2 p.1) = some p.1.shown :=
      fun p _ ↦ readAssigned_returnLine p.2 p.1
    rw [List.mapIdx_eq_zipIdx_map]
    refine (mapM_map_eq_some hline).trans (congrArg some ?_)
    have hfst := congrArg (List.map SimValue.shown) (List.zipIdx_map_fst 0 r.returns)
    rwa [List.map_map] at hfst
  have hreadRegisters : ((r.registers.entries n).map (registerLine pad)).mapM readRegister =
      some ((r.registers.entries n).map fun entry ↦ (entry.1, entry.2.shown)) :=
    mapM_map_eq_some fun entry _ ↦ readRegister_registerLine pad entry
  have hlines : ∀ line ∈ writeHexdump r.memory.bytes, decide (line ≠ "") = true :=
    fun line hline ↦ decide_eq_true (ne_empty_of_mem_writeHexdump hline)
  -- the memory ends with the dump, or with the blank line before the error
  have hmemory : ∀ error : Option SimError,
      let lines := writeHexdump r.memory.bytes ++
        error.elim [] fun err ↦ ["", "=== Halted ===", err.display]
      lines.takeWhile (· ≠ "") = writeHexdump r.memory.bytes ∧
        (lines.dropWhile (· ≠ ""))[2]? = error.map SimError.display := by
    rintro (_ | err)
    · simp only [Option.elim_none, List.append_nil]
      rw [List.takeWhile_eq_self_iff.mpr hlines, List.dropWhile_eq_nil_iff.mpr hlines]
      exact ⟨rfl, rfl⟩
    · simp only [Option.elim_some]
      rw [takeWhile_append_cons hlines (by decide), dropWhile_append_cons hlines (by decide)]
      exact ⟨rfl, rfl⟩
  refine ⟨⟨r.trace, r.returns.map SimValue.shown,
    (r.registers.entries n).map fun entry ↦ (entry.1, entry.2.shown), r.memory.bytes,
    r.error.map SimError.display⟩, ?_, rfl, rfl, ?_, ?_, rfl, rfl⟩
  · rw [SimResult.dumpTo, readResult, readTrace_append htrace (readTrace_titled (by decide) _ _)]
    simp only [readSection_of_readAssigned hreturns, readSection_of_readAssigned hregisters,
      Option.bind_eq_bind, Option.bind_some, hreadReturns, hreadRegisters, List.drop_succ_cons,
      List.drop_zero, (hmemory r.error).1, (hmemory r.error).2, readDump_writeHexdump]
  · intro v s
    rw [List.mem_map]
    constructor
    · rintro ⟨⟨v', x⟩, hmem, heq⟩
      cases heq
      exact ⟨x, (mem_entries hn).mp hmem, rfl⟩
    · rintro ⟨x, hx, rfl⟩
      exact ⟨(v, x), (mem_entries hn).mpr hx, rfl⟩
  · exact List.pairwise_map.mpr (pairwise_entries r.registers n)

/-! ## What a run leaves can be dumped -/

/-- Only finitely many registers are bound. -/
def Registers.Bounded (registers : Registers) : Prop :=
  ∃ n, ∀ v : Value, n ≤ v.index → registers v = none

namespace Registers.Bounded

variable {registers : Registers}

omit [RustCore] in
theorem insert (h : registers.Bounded) (v : Value) (x : SimValue) :
    Registers.Bounded (Env.insert registers v x) := by
  obtain ⟨n, hn⟩ := h
  refine ⟨max n (v.index + 1), ?_⟩
  intro u hu
  have hne : u ≠ v := by
    rintro rfl
    exact absurd ((le_max_right _ _).trans hu) (Nat.not_succ_le_self _)
  rw [Env.insert_of_ne _ _ hne]
  exact hn u ((le_max_left _ _).trans hu)

omit [RustCore] in
theorem insertAll (h : registers.Bounded) (vs : List Value) (xs : List SimValue) :
    Registers.Bounded (Env.insertAll vs xs registers) := by
  induction vs generalizing xs registers with
  | nil => exact h
  | cons v vs ih =>
      cases xs with
      | nil => exact h
      | cons x xs => exact ih (h.insert v x) xs

omit [RustCore] in
theorem bindZeros (h : registers.Bounded) (dfg : DataFlowGraph) (vs : List Value) :
    Registers.Bounded (bindZeros dfg vs registers).1 := by
  induction vs generalizing registers with
  | nil => exact h
  | cons v vs ih =>
      cases hzero : SimValue.zeroOf (dfg.valueType v) with
      | none =>
          simp only [Sim.bindZeros, hzero]
          exact h
      | some zero =>
          rw [bindZeros_of_isSim hzero]
          exact ih (h.insert v zero)

end Registers.Bounded

/-- The trace has no blank line, and finitely many registers are bound. -/
structure RunState.Printable (state : RunState) : Prop where
  trace : ∀ line ∈ state.trace, line ≠ ""
  registers : state.registers.Bounded

namespace RunState.Printable

variable {state : RunState} {func : Function}

omit [RustCore] in
theorem log (h : state.Printable) {line : String} (hline : line ≠ "") :
    (state.log line).Printable where
  trace := by
    intro l hl
    rw [trace_log] at hl
    rcases List.mem_append.mp hl with hl | hl
    · exact h.trace l hl
    · split at hl
      · rw [List.mem_singleton.mp hl]
        exact hline
      · cases hl
  registers := by
    rw [registers_log]
    exact h.registers

theorem bindResults (h : state.Printable) (func : Function) (inst : Inst) (opcode : Opcode)
    (produced : List SimValue) : (bindResults func inst opcode produced state).Printable := by
  obtain ⟨line, hline, heq⟩ : ∃ line, line ≠ "" ∧
      Sim.bindResults func inst opcode produced state =
        { state.log line with
          registers := Env.insertAll (func.dfg.instResults inst) produced
            (state.log line).registers } := by
    refine ⟨_, ?_, rfl⟩
    repeat apply append_ne_empty
    decide
  rw [heq]
  exact ⟨(h.log hline).trace, (h.log hline).registers.insertAll _ _⟩

omit [RustCore] in
theorem fillResults (h : state.Printable) (func : Function) (inst : Inst) :
    (fillResults func inst state).1.Printable := by
  rw [fillResults_eq]
  exact ⟨h.trace, h.registers.bindZeros func.dfg _⟩

omit [RustCore] in
theorem branchTo (h : state.Printable) (dest : BlockCall) {line : String} (hline : line ≠ "") :
    (branchTo state dest line).1.Printable := by
  unfold Sim.branchTo
  cases state.getAll dest.values with
  | error e => exact h
  | ok params => exact h.log hline

theorem computeStep (h : state.Printable) (func : Function) (inst : Inst)
    (data : InstructionData) : (computeStep func state inst data).1.Printable := by
  unfold Sim.computeStep
  cases compute func state inst data with
  | error e => exact h
  | ok v => exact h.bindResults func inst _ _

theorem storeStep (h : state.Printable) (func : Function) (inst : Inst) (opcode : Opcode)
    (x p : Value) (offset : BitVec 32) :
    (storeStep func state inst opcode x p offset).1.Printable := by
  unfold Sim.storeStep
  cases state.get x with
  | error e => exact h
  | ok val =>
      cases state.get p with
      | error e => exact h
      | ok base =>
          dsimp only
          rcases storeTo state.memory (effectiveAddr base offset) val with ⟨memory, e | u⟩
          · exact ⟨h.trace, h.registers⟩
          · have hwritten : Printable { state with memory } := ⟨h.trace, h.registers⟩
            exact hwritten.bindResults func inst opcode []

theorem callStep (h : state.Printable) (func : Function) (inst : Inst) (f : FuncRef)
    (args : List Value) : (callStep func state inst f args).1.Printable := by
  unfold Sim.callStep
  cases state.getAll args with
  | error e => exact h
  | ok vals =>
      dsimp only
      split
      · cases formatCallArgs vals state.memory with
        | none => exact h
        | some formatted =>
            refine (h.log ?_).fillResults func inst
            repeat apply append_ne_empty
            decide
      · exact h.fillResults func inst

/-- No instruction logs a blank line or binds more than its results. -/
theorem step (h : state.Printable) (func : Function) (inst : Inst) (data : InstructionData) :
    (step func state inst data).1.Printable := by
  cases data with
  | store opcode x p offset => exact h.storeStep func inst opcode x p offset
  | jump opcode dest => exact h.branchTo dest (append_ne_empty (by decide) _)
  | brif opcode c thenDest elseDest =>
      show (brifStep state c thenDest elseDest).1.Printable
      unfold brifStep
      cases state.get c with
      | error e => exact h
      | ok x =>
          apply h.branchTo
          repeat apply append_ne_empty
          decide
  | multiAry opcode args =>
      cases opcode
      case return_ =>
        show (returnStep state args).1.Printable
        unfold returnStep
        cases state.getAll args with
        | error e => exact h
        | ok vals =>
            apply h.log
            repeat apply append_ne_empty
            decide
      all_goals exact h.computeStep func inst (.multiAry _ args)
  | call opcode args f => exact h.callStep func inst f args
  | other opcode args => exact h.computeStep func inst (.other opcode args)
  | _ => exact h.computeStep func inst _

theorem logHalt (h : state.Printable) (err : SimError) (inst : Inst) :
    (state.logHalt err inst).Printable := by
  apply h.log
  repeat apply append_ne_empty
  decide

omit [RustCore] in
theorem bindParams (h : state.Printable) (func : Function) (b : Block)
    (params : List SimValue) : (state.bindParams func b params).Printable :=
  ⟨h.trace, h.registers.insertAll _ params⟩

theorem advance (h : state.Printable) (func : Function) (p : Function.Point) (inst : Inst)
    (r : StepResult) : (advance func p inst state r).state.Printable := by
  cases r with
  | continue_ | return_ vals | panicked => exact h
  | jump target params => exact h.bindParams func target params
  | error err => exact h.logHalt err inst

end RunState.Printable

omit [RustCore] in
theorem printable_start (sim : Simulator) (func : Function) (args : List SimValue) :
    (sim.start func args).state.Printable := by
  have hinit : sim.initState.Printable := ⟨nofun, 0, fun _ _ ↦ rfl⟩
  unfold Simulator.start
  cases func.layout.entryBlock with
  | none => exact hinit
  | some entry => exact hinit.bindParams func entry args

theorem printable_configAfter (sim : Simulator) (func : Function) (args : List SimValue)
    (n : Nat) : (sim.configAfter func args n).state.Printable := by
  induction n with
  | zero => exact printable_start sim func args
  | succ n ih =>
      rw [Simulator.configAfter_succ]
      cases hdone : (machine func).done (sim.configAfter func args n) with
      | some h => rwa [next_of_done hdone]
      | none =>
          obtain ⟨p, inst, hp, hinst⟩ := done_eq_none_iff.mp hdone
          rw [next_of_instAt hp hinst]
          exact (ih.step func inst _).advance func p inst _

/-- The state a run leaves can be printed. -/
theorem printable_exec (sim : Simulator) (func : Function) (args : List SimValue) :
    ∃ exit, sim.exec func args = some exit ∧ exit.state.Printable := by
  rcases Machine.haltsAt_or_running (M := machine func) sim.maxSteps (sim.start func args) with
    ⟨k, hk, h, hhalts⟩ | hrun
  · obtain ⟨returns, error, rfl, -⟩ := exists_ended_of_haltsAt hhalts
    exact ⟨_, exec_of_haltsAt hhalts hk, printable_configAfter sim func args k⟩
  · obtain ⟨p, inst, -, -, hexec⟩ := exec_of_running_eq hrun
    exact ⟨_, hexec, (printable_configAfter sim func args sim.maxSteps).logHalt _ inst⟩

/-- **The dump loses nothing.**  Every run of a function, verified or not, leaves a result that is
read back from its dump, as far as the text of values goes: the trace a line at a time, the
returned values, every register that is bound and no other, in the order of values, the
memory, and the error.  The text of an integer determines it and its type. -/
theorem dump_lossless (sim : Simulator) (func : Function) (args : List SimValue) :
    (∃ r n, sim.run func args = some r ∧ ∀ m, n ≤ m → ∀ pad : Value → Nat,
      ∃ d, readResult (r.dumpTo m pad) = some d ∧ d.Describes r) ∧
    ∀ x y : SimValue, x.shown = y.shown → x = y ∨ ∃ ty text, x.shown = .float ty text := by
  obtain ⟨exit, hexec, htrace, n, hn⟩ := printable_exec sim func args
  refine ⟨⟨_, n, run_of_exec hexec, ?_⟩, fun _ _ ↦ eq_or_float_of_shown_eq⟩
  intro m hm pad
  exact readResult_dumpTo htrace (fun v hv ↦ hn v (hm.trans hv)) pad

end LowerIrUtils.Sim
