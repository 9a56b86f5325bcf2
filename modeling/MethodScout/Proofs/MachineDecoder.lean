import MethodScout.Proofs.CodeFaults
import MethodScout.Proofs.MachineText
import MethodScout.Proofs.Truncation

/-!
# Class files decoded with machine words

`Machine.readClass` decodes a class file as `ClassFile.read` does, but with words of 8, 16, 32 and 64 bits where the latter
has unbounded numbers: the sizes of tables are products that may wrap, and the number of a constant is a cast. Each of its
parts computes what the part of the same kind computes there. It follows that on every input no word wraps or loses bits.
-/

namespace MethodScout.Machine

open Machine.Parser

/-! ## Sizes -/

/-- The size of the table of a `tableswitch`, computed in signed words of 64 bits and then cast. -/
def tableBytes (low high : Int32) : UInt64 := (high.toInt64 - low.toInt64 + 1).toUInt64 * 4

/-- The size of the pairs of a `lookupswitch`. -/
def lookupBytes (pairs : Int32) : UInt64 := pairs.toInt64.toUInt64 * 8

def interfaceBytes (interfaces : UInt16) : UInt64 := interfaces.toUInt64 * 2

/-- How many bytes come before the next position that is a multiple of four. -/
def padding (pos : UInt64) : UInt64 := (4 - pos % 4) % 4

theorem toNat_toUInt64 {n : Int64} (hn : 0 ≤ n.toInt) : (n.toUInt64.toNat : Int) = n.toInt := by
  have hcases : n.toInt = if 2 * n.toUInt64.toNat < 2 ^ 64 then (n.toUInt64.toNat : Int)
      else n.toUInt64.toNat - (2 ^ 64 : Nat) := BitVec.toInt_eq_toNat_cond n.toBitVec
  have hlt := n.toUInt64.toNat_lt
  split at hcases <;> omega

theorem toNat_tableBytes {low high : Int32} (h : low ≤ high) :
    (tableBytes low high).toNat = 4 * (high.toInt - low.toInt + 1).toNat := by
  have hle := Int32.le_iff_toInt_le.mp h
  have hlow := low.le_toInt
  have hhigh := high.toInt_lt
  have hcount : (high.toInt64 - low.toInt64 + 1).toInt = high.toInt - low.toInt + 1 := by
    rw [Int64.toInt_add, Int64.toInt_sub, Int32.toInt_toInt64, Int32.toInt_toInt64, Int64.toInt_one,
      Int.bmod_eq_of_le (n := high.toInt - low.toInt) (by omega) (by omega), Int.bmod_eq_of_le (by omega) (by omega)]
  have hword := toNat_toUInt64 (n := high.toInt64 - low.toInt64 + 1) (by omega)
  rw [tableBytes, UInt64.toNat_mul]
  change _ * 4 % 2 ^ 64 = _
  omega

theorem toNat_lookupBytes {pairs : Int32} (h : 0 ≤ pairs) : (lookupBytes pairs).toNat = 8 * pairs.toInt.toNat := by
  have hle : 0 ≤ pairs.toInt := Int32.le_iff_toInt_le.mp h
  have hlt := pairs.toInt_lt
  have hword := toNat_toUInt64 (n := pairs.toInt64) (by rwa [Int32.toInt_toInt64])
  rw [Int32.toInt_toInt64] at hword
  rw [lookupBytes, UInt64.toNat_mul]
  change _ * 8 % 2 ^ 64 = _
  omega

theorem toNat_interfaceBytes (interfaces : UInt16) : (interfaceBytes interfaces).toNat = 2 * interfaces.toNat := by
  have hlt := interfaces.toNat_lt
  rw [interfaceBytes, UInt64.toNat_mul, UInt16.toNat_toUInt64]
  change _ * 2 % 2 ^ 64 = _
  omega

theorem toNat_padding (pos : UInt64) : (padding pos).toNat = (4 - pos.toNat % 4) % 4 := by
  have hle : pos % 4 ≤ 4 := by
    rw [UInt64.le_iff_toNat_le, UInt64.toNat_mod]
    exact Nat.le_of_lt (Nat.mod_lt _ (by decide))
  rw [padding, UInt64.toNat_mod, UInt64.toNat_sub_of_le _ _ hle, UInt64.toNat_mod]
  rfl

/-! ## The constant pool -/

/-- Reads what follows the tag of the constant with a number. -/
def readPayload (index : UInt16) (tag : UInt8) : Parser Constant :=
  match tag.toNat with
  | 1 => do
    let length ← u16
    let text ← bytes length.toUInt64
    return .utf8 (decodeText text)
  | 3 | 4 | 9 | 17 => do
    skip 4
    return .other
  | 5 | 6 => do
    skip 8
    return .wide
  | 7 => return .classRef (← u16).toNat
  | 8 | 16 | 19 | 20 => do
    skip 2
    return .other
  | 10 | 11 => return .methodRef (← u16).toNat (← u16).toNat
  | 12 => return .nameAndType (← u16).toNat (← u16).toNat
  | 15 => do
    skip 3
    return .other
  | 18 => do
    skip 2
    return .invokeDynamic (← u16).toNat
  | tag => fail (.unknownConstantTag index.toNat tag)

def readConstant (index : UInt16) : Parser Constant := do
  readPayload index (← u8)

/-- Reads constants until there are as many slots as declared. A long or double in the last slot gives one slot more, which
is cut off. -/
def readSlots (count : UInt16) (slots : Array (Option Constant)) : Parser (Array (Option Constant)) :=
  if slots.size < count.toNat then do
    let index ← entryNumber slots.size
    let constant ← readConstant index
    if constant = .wide then readSlots count ((slots.push (some constant)).push none)
    else readSlots count (slots.push (some constant))
  else return slots.take (max count.toNat 1)
termination_by count.toNat - slots.size

def readPool : Parser ConstantPool := do
  let count ← u16
  return ⟨← readSlots count #[none]⟩

/-! ## Instructions -/

def readCall (pool : ConstantPool) (kind : CallKind) : Parser Instruction := do
  let index ← u16
  skip (UInt64.ofNat (Instruction.unusedBytes kind))
  return .call (← lift (Instruction.resolve pool kind index.toNat))

def align : Parser Unit := do
  skip (padding (← position))

def skipTable (start size : UInt64) : Parser Unit :=
  (skip size).orFail (.malformedSwitch start.toNat)

def readTableSwitch (start : UInt64) : Parser Instruction := do
  align
  skip 4
  let low ← i32
  let high ← i32
  if high < low then fail (.malformedSwitch start.toNat)
  skipTable start (tableBytes low high)
  return .switch .table

def readLookupSwitch (start : UInt64) : Parser Instruction := do
  align
  skip 4
  let pairs ← i32
  if pairs < 0 then fail (.malformedSwitch start.toNat)
  skipTable start (lookupBytes pairs)
  return .switch .lookup

def readOperands (pool : ConstantPool) (start : UInt64) (opcode : UInt8) : Parser Instruction :=
  match Instruction.form? opcode with
  | none => fail (.invalidOpcode start.toNat opcode)
  | some .monitorEnter => return .monitorEnter
  | some (.call kind) => readCall pool kind
  | some .tableSwitch => readTableSwitch start
  | some .lookupSwitch => readLookupSwitch start
  | some .branch => do
    skip 2
    return .conditionalBranch
  | some .wide => do
    let widened ← u8
    skip (if widened.toNat = Instruction.increment then 4 else 2)
    return .other opcode
  | some (.plain width) => do
    skip (UInt64.ofNat width)
    return .other opcode

def readInstruction (pool : ConstantPool) : Parser Instruction := do
  let start ← position
  let opcode ← u8
  readOperands pool start opcode

theorem pos_lt_of_readInstruction {pool : ConstantPool} {r : ByteReader} {x : Instruction}
    (h : ((readInstruction pool).run r).outcome = .ok x) :
    ((readInstruction pool).run r).reader.data = r.data ∧ r.pos < ((readInstruction pool).run r).reader.pos := by
  obtain ⟨start, hstart, h, hreader⟩ := outcome_bind_eq_ok h
  obtain ⟨opcode, hopcode, -, hreader'⟩ := outcome_bind_eq_ok h
  obtain ⟨hdata, hpos⟩ := ((readOperands pool start opcode).steps (u8.run (position.run r).reader).reader).precedes
  obtain ⟨hdata', hpos'⟩ := pos_lt_of_u8 hopcode
  rw [readInstruction, hreader, hreader']
  exact ⟨hdata.trans hdata', UInt64.lt_of_lt_of_le hpos' hpos⟩

/-- Reads instructions up to the end of the data, after those already read (the latest first). -/
def readInstructionsFrom (pool : ConstantPool) (read : List Instruction) (r : ByteReader) : Run (List Instruction) :=
  if r.isEmpty then ⟨.ok read.reverse, r, []⟩
  else
    match _ : ((readInstruction pool).run r).outcome with
    | .error fault => ⟨.error fault, ((readInstruction pool).run r).reader, ((readInstruction pool).run r).trace⟩
    | .ok x =>
      let rest := readInstructionsFrom pool (x :: read) ((readInstruction pool).run r).reader
      ⟨rest.outcome, rest.reader, ((readInstruction pool).run r).trace ++ rest.trace⟩
termination_by r.data.size.toNat - r.pos.toNat
decreasing_by
  -- The opcode was read, so the position has grown, and by words that did not wrap.
  obtain ⟨hdata, hpos⟩ := pos_lt_of_readInstruction ‹_›
  have hempty : ¬r.isEmpty = true := ‹_›
  simp only [ByteReader.isEmpty, decide_eq_true_eq, UInt64.le_iff_toNat_le] at hempty
  rw [UInt64.lt_iff_toNat_lt] at hpos
  rw [hdata]
  omega

theorem steps_readInstructionsFrom (pool : ConstantPool) (read : List Instruction) (r : ByteReader) :
    Steps r (readInstructionsFrom pool read r).trace (readInstructionsFrom pool read r).reader := by
  fun_induction readInstructionsFrom pool read r with
  | case1 read r => exact .done r
  | case2 read r => exact (readInstruction pool).steps r
  | case3 read r hempty x hx rest ih => exact ((readInstruction pool).steps r).append ih

def readInstructions (pool : ConstantPool) : Parser (List Instruction) :=
  ⟨readInstructionsFrom pool [], steps_readInstructionsFrom pool []⟩

/-! ## Class files -/

def readHeader : Parser Unit := do
  let word ← u32
  if word.toNat ≠ ClassFile.magic then fail (.badMagic word.toNat)
  let minor ← u16
  let major ← u16
  if !ClassFile.supports major.toNat then fail (.unsupportedVersion major.toNat minor.toNat)

def skipAttribute : Parser Unit := do
  skip 2
  skip (← u32).toUInt64

def skipField : Parser Unit := do
  skip 6
  let _ ← times (← u16).toNat skipAttribute

/-- The instructions in the body of a code attribute. -/
def readCode (pool : ConstantPool) : Parser (List Instruction) := do
  skip 4
  let array ← bytes (← u32).toUInt64
  within array (readInstructions pool)

def readAttribute (pool : ConstantPool) : Parser (Option (List Instruction)) := do
  let name ← lift (pool.utf8 (← u16).toNat)
  let body ← bytes (← u32).toUInt64
  if name = "Code" then return some (← within body (readCode pool))
  else return none

def readMethod (pool : ConstantPool) : Parser Method := do
  let access ← u16
  let name ← lift (pool.utf8 (← u16).toNat)
  let _ ← lift (pool.utf8 (← u16).toNat)
  let codes ← times (← u16).toNat (readAttribute pool)
  return ⟨name, access.toNat, codes.foldl (fun code found => found.getD code) []⟩

def readClass : Parser ClassFile := do
  readHeader
  let pool ← readPool
  let _access ← u16
  let name ← lift (pool.className (← u16).toNat)
  let _super ← u16
  let interfaces ← u16
  skip (interfaceBytes interfaces)
  let _ ← times (← u16).toNat skipField
  let methods ← times (← u16).toNat (readMethod pool)
  return ⟨Text.replaceChars (· == '/') '.' name, methods⟩

/-- The run of the decoder on bytes from their start. -/
def parse (s : Slice) : Run ClassFile := readClass.run (.new s)

/-! ## Each part in unbounded numbers -/

theorem toNat_le_bound (length : UInt32) : length.toNat ≤ 2 ^ 34 :=
  Nat.le_trans (Nat.le_of_lt length.toNat_lt) (by decide)

theorem computes_readPayload (index : UInt16) (tag : UInt8) :
    (readPayload index tag).Computes id (ConstantPool.readPayload index.toNat tag.toNat) := by
  have hskipped (length : UInt64) (c : Constant) (hlength : length.toNat ≤ 2 ^ 34) :
      (do skip length; return c : Parser Constant).Computes id
        (do Decoder.skip length.toNat; return c : Decoder Constant) :=
    (computes_skip rfl hlength).map fun _ => rfl
  have hindices (f : Nat → Nat → Constant) :
      (do return f (← u16).toNat (← u16).toNat : Parser Constant).Computes id
        (do return f (← Decoder.u16) (← Decoder.u16) : Decoder Constant) :=
    computes_u16.bind fun _ => computes_u16.map fun _ => rfl
  unfold readPayload
  generalize tag.toNat = n
  split
  · refine computes_u16.bind fun length => ?_
    have hlength := length.toNat_lt
    exact (computes_bytes length.toNat_toUInt64 (by omega)).map fun s => congrArg Constant.utf8 (decodeText_eq s)
  · exact hskipped 4 _ (by decide)
  · exact hskipped 4 _ (by decide)
  · exact hskipped 4 _ (by decide)
  · exact hskipped 4 _ (by decide)
  · exact hskipped 8 _ (by decide)
  · exact hskipped 8 _ (by decide)
  · exact computes_u16.map fun _ => rfl
  · exact hskipped 2 _ (by decide)
  · exact hskipped 2 _ (by decide)
  · exact hskipped 2 _ (by decide)
  · exact hskipped 2 _ (by decide)
  · exact hindices .methodRef
  · exact hindices .methodRef
  · exact hindices .nameAndType
  · exact hskipped 3 _ (by decide)
  · exact (computes_skip rfl (by decide)).bind fun _ => computes_u16.map fun _ => rfl
  · simp only [ConstantPool.readPayload]
    exact computes_fail _ id

theorem computes_readConstant (index : UInt16) :
    (readConstant index).Computes id (ConstantPool.readConstant index.toNat) :=
  computes_u8.bind (computes_readPayload index)

/-- The loop ends as soon as there are slots enough, and cuts off what the last constant took beyond them. -/
theorem computes_readSlots_of_le {count : UInt16} {slots kept : Array (Option Constant)} (h : count.toNat ≤ slots.size)
    (hkept : slots.take (max count.toNat 1) = kept) : (readSlots count slots).Computes id (pure kept) := by
  rw [readSlots, if_neg (Nat.not_lt.mpr h), hkept]
  exact computes_pure kept id

/-- One round of the loop. The slots before the constant are fewer than declared, so their number fits into 16 bits. -/
theorem computes_readSlots_of_lt {count : UInt16} {slots : Array (Option Constant)}
    {l : Constant → Decoder (Array (Option Constant))} (h : slots.size < count.toNat)
    (hwide : (readSlots count ((slots.push (some .wide)).push none)).Computes id (l .wide))
    (hnarrow : ∀ c, c ≠ .wide → (readSlots count (slots.push (some c))).Computes id (l c)) :
    (readSlots count slots).Computes id (ConstantPool.readConstant slots.size >>= l) := by
  have hlt := count.toNat_lt
  rw [readSlots, if_pos h]
  refine computes_entryNumber (by omega) fun index hindex => ?_
  have hconstant := computes_readConstant index
  rw [hindex] at hconstant
  refine hconstant.bind fun c => ?_
  by_cases hc : c = .wide
  · simp only [hc, ↓reduceIte, id_eq]
    exact hwide
  · simp only [hc, ↓reduceIte, id_eq]
    exact hnarrow c hc

theorem computes_readSlots {count : UInt16} {missing : Nat} {slots : Array (Option Constant)}
    (hcount : slots.size + missing = max count.toNat 1) (hpos : 0 < slots.size) :
    (readSlots count slots).Computes id (ConstantPool.readSlots missing slots) := by
  fun_induction ConstantPool.readSlots missing slots with
  | case1 slots => exact computes_readSlots_of_le (by omega) (by simp [← hcount])
  | case2 slots =>
      -- A long or double takes one slot more than is missing.
      refine computes_readSlots_of_lt (by omega) ?_ fun c _ => ?_
      · exact computes_readSlots_of_le (by simp; omega) (by simp [← hcount])
      · exact computes_readSlots_of_le (by simp; omega) (by simp [← hcount])
  | case3 missing slots ihWide ihNarrow =>
      refine computes_readSlots_of_lt (by omega) ?_ fun c hc => ?_
      · exact ihWide .wide (by simp; omega) (by simp)
      · simp only [hc, ↓reduceIte]
        exact ihNarrow c (by simp; omega) (by simp)

theorem computes_readPool : readPool.Computes id ConstantPool.read := by
  refine computes_u16.bind fun count => ?_
  exact (computes_readSlots (by simp; omega) (by simp)).map fun _ => rfl

theorem computes_readCall (pool : ConstantPool) (kind : CallKind) :
    (readCall pool kind).Computes id (Instruction.readCall pool kind) := by
  have hunused : (UInt64.ofNat (Instruction.unusedBytes kind)).toNat = Instruction.unusedBytes kind := by
    cases kind <;> rfl
  have hle : Instruction.unusedBytes kind ≤ 2 ^ 34 := by cases kind <;> decide
  exact computes_u16.bind fun index => (computes_skip hunused hle).bind fun _ =>
    (computes_lift _).map fun _ => rfl

theorem computes_align : align.Computes id Instruction.align :=
  computes_position.bind fun pos => computes_skip (toNat_padding pos) (by omega)

theorem computes_skipTable {size : UInt64} {n : Nat} (start : UInt64) (hn : size.toNat = n) (hle : n ≤ 2 ^ 34) :
    (skipTable start size).Computes id (Instruction.skipTable start.toNat n) := by
  refine (computes_skip hn hle).orFail fun c => ?_
  simp only [Instruction.skipTable, Decoder.skip, Decoder.bytes, Bind.bind, StateT.bind, Except.bind, Reader.take]
  by_cases hholds : c.rest.holds n = true
  · simp only [hholds, if_true]
    rfl
  · simp only [hholds]
    rfl

theorem computes_readTableSwitch (start : UInt64) :
    (readTableSwitch start).Computes id (Instruction.readTableSwitch start.toNat) := by
  refine computes_align.bind fun _ => (computes_skip rfl (by decide)).bind fun _ => computes_i32.bind fun low =>
    computes_i32.bind fun high => .unless Int32.lt_iff_toInt_lt fun hle => ?_
  have hlow := low.le_toInt
  have hhigh := high.toInt_lt
  exact (computes_skipTable start (toNat_tableBytes (Int32.not_lt.mp hle)) (by omega)).map fun _ => rfl

theorem computes_readLookupSwitch (start : UInt64) :
    (readLookupSwitch start).Computes id (Instruction.readLookupSwitch start.toNat) := by
  refine computes_align.bind fun _ => (computes_skip rfl (by decide)).bind fun _ => computes_i32.bind fun pairs =>
    .unless Int32.lt_iff_toInt_lt fun hle => ?_
  have hpairs := pairs.toInt_lt
  exact (computes_skipTable start (toNat_lookupBytes (Int32.not_lt.mp hle)) (by omega)).map fun _ => rfl

theorem width_le {opcode : UInt8} {width : Nat} (h : Instruction.form? opcode = some (.plain width)) : width ≤ 4 := by
  have hwidth : Instruction.fixedWidth? opcode = some width := Instruction.has_of_form? opcode _ h
  unfold Instruction.fixedWidth? at hwidth
  grind

theorem computes_readOperands (pool : ConstantPool) (start : UInt64) (opcode : UInt8) :
    (readOperands pool start opcode).Computes id (Instruction.readOperands pool start.toNat opcode) := by
  unfold readOperands Instruction.readOperands
  cases hform : Instruction.form? opcode with
  | none => exact computes_fail _ id
  | some form =>
      cases form with
      | plain width =>
          have hwidth := width_le hform
          have hword := UInt64.toNat_ofNat_of_lt' (Nat.lt_of_le_of_lt hwidth (by decide))
          exact (computes_skip hword (by omega)).map fun _ => rfl
      | monitorEnter => exact computes_pure _ id
      | call kind => exact computes_readCall pool kind
      | branch => exact (computes_skip rfl (by decide)).map fun _ => rfl
      | tableSwitch => exact computes_readTableSwitch start
      | lookupSwitch => exact computes_readLookupSwitch start
      | wide =>
          refine computes_u8.bind fun widened => ?_
          exact (computes_skip (by split <;> rfl) (by split <;> decide)).map fun _ => rfl

theorem computes_readInstruction (pool : ConstantPool) :
    (readInstruction pool).Computes id
      (do Instruction.readOperands pool (← Reader.position) (UInt8.ofNat (← Decoder.u8))) := by
  refine computes_position.bind fun start => computes_u8.bind fun opcode => ?_
  rw [UInt8.ofNat_toNat]
  exact computes_readOperands pool start opcode

/-- One round of the loop. -/
theorem decodeAfter_eq_bind (pool : ConstantPool) (read : List Instruction) {r : ByteReader}
    (hempty : ¬r.isEmpty = true) :
    Instruction.decodeAfter pool read r.cursor =
      ((do Instruction.readOperands pool (← Reader.position) (UInt8.ofNat (← Decoder.u8)) : Decoder Instruction) r.cursor
        >>= fun x => Instruction.decodeAfter pool (x.1 :: read) x.2) := by
  have hlt : r.pos.toNat < r.data.bytes.length := by
    simpa [ByteReader.isEmpty, UInt64.lt_iff_toNat_lt] using hempty
  have hopcode (o : Nat) (opcode : UInt8) (rest : Bytes) :
      Decoder.u8 ⟨o, opcode :: rest⟩ = .ok (opcode.toNat, ⟨o + 1, rest⟩) :=
    Decoder.follows_u8.run ⟨opcode, rfl, rfl⟩ rest
  rw [ByteReader.cursor, List.drop_eq_getElem_cons hlt, Instruction.decodeAfter_cons]
  simp only [Bind.bind, StateT.bind, Except.bind, Reader.position, hopcode, UInt8.ofNat_toNat]

theorem gives_readInstructionsFrom (pool : ConstantPool) (read : List Instruction) {r : ByteReader} (hr : r.Valid) :
    (readInstructionsFrom pool read r).Gives id (Instruction.decodeAfter pool read r.cursor) := by
  fun_induction readInstructionsFrom pool read r with
  | case1 read r hempty =>
      have hle : r.data.size ≤ r.pos := of_decide_eq_true hempty
      rw [UInt64.le_iff_toNat_le, Slice.toNat_size] at hle
      rw [ByteReader.cursor, List.drop_eq_nil_of_le hle, Instruction.decodeAfter_nil]
      exact ⟨rfl, by simp⟩
  | case2 read r hempty fault hfault =>
      obtain ⟨hrun, hbounded⟩ := computes_readInstruction pool r hr
      rw [decodeAfter_eq_bind pool read hempty, hrun, hfault]
      exact ⟨rfl, hbounded⟩
  | case3 read r hempty x hx rest ih =>
      obtain ⟨hrun, hbounded⟩ := computes_readInstruction pool r hr
      rw [decodeAfter_eq_bind pool read hempty, hrun, hx]
      obtain ⟨hrest, hbounded'⟩ := ih (((readInstruction pool).steps r).valid hr)
      exact ⟨hrest, List.forall_mem_append.mpr ⟨hbounded, hbounded'⟩⟩

theorem gives_readInstructions (pool : ConstantPool) (s : Slice) :
    ((readInstructions pool).run (.new s)).Gives id (Instruction.decode pool s.bytes) :=
  gives_readInstructionsFrom pool [] (ByteReader.valid_new s)

theorem computes_readHeader : readHeader.Computes id ClassFile.readHeader := by
  refine computes_u32.bind fun word => .unless Iff.rfl fun _ => computes_u16.bind fun minor =>
    computes_u16.bind fun major => ?_
  split
  · exact computes_fail _ id
  · exact computes_pure () id

theorem computes_skipField : skipField.Computes id ClassFile.skipField := by
  have hattribute : skipAttribute.Computes id ClassFile.skipAttribute :=
    (computes_skip rfl (by decide)).bind fun _ => computes_u32.bind fun length =>
      computes_skip length.toNat_toUInt64 (toNat_le_bound length)
  exact (computes_skip rfl (by decide)).bind fun _ => computes_u16.bind fun count =>
    (hattribute.times count.toNat).map fun _ => rfl

theorem computes_readCode (pool : ConstantPool) :
    (readCode pool).Computes id (ClassFile.codeArray >>= fun array => liftM (Instruction.decode pool array)) := by
  rw [ClassFile.codeArray, bind_assoc]
  refine (computes_skip rfl (by decide)).bind fun _ => ?_
  rw [bind_assoc]
  exact computes_u32.bind fun length => (computes_bytes length.toNat_toUInt64 (toNat_le_bound length)).bind fun array =>
    computes_within (gives_readInstructions pool array)

/-- A reader of its own for a part of the data, and what becomes of the value that it gives. -/
theorem lift_readAll_bind {α β : Type} (q : Decoder α) (f : α → Except DecodeFault β) (bs : Bytes) :
    (liftM ((q >>= fun a => liftM (f a)).readAll bs) : Decoder β) = liftM (q.readAll bs) >>= fun a => liftM (f a) := by
  funext c
  simp only [Reader.readAll, Bind.bind, StateT.bind, Except.bind]
  cases q ⟨0, bs⟩ with
  | error fault => rfl
  | ok x =>
      change (liftM (((liftM (f x.1) : Decoder β) x.2).map Prod.fst) : Decoder β) c = (liftM (f x.1) : Decoder β) c
      cases f x.1 <;> rfl

theorem computes_within_readCode (pool : ConstantPool) (body : Slice) :
    (within body (readCode pool)).Computes id
      (liftM (Reader.readAll ClassFile.codeArray body.bytes) >>= fun array => liftM (Instruction.decode pool array)) := by
  rw [← lift_readAll_bind]
  exact computes_within ((computes_readCode pool).gives_new body)

theorem computes_readAttribute (pool : ConstantPool) :
    (readAttribute pool).Computes id (ClassFile.readAttribute pool) := by
  refine computes_u16.bind fun index => (computes_lift _).bind fun name => computes_u32.bind fun length =>
    (computes_bytes length.toNat_toUInt64 (toNat_le_bound length)).bind fun body => ?_
  by_cases hname : name = "Code"
  · simp only [hname, id_eq, ↓reduceIte]
    rw [← bind_assoc]
    exact (computes_within_readCode pool body).map fun _ => rfl
  · simp only [hname, id_eq, ↓reduceIte]
    exact computes_pure none id

theorem computes_readMethod (pool : ConstantPool) : (readMethod pool).Computes id (ClassFile.readMethod pool) := by
  refine computes_u16.bind fun access => computes_u16.bind fun name => (computes_lift _).bind fun _ =>
    computes_u16.bind fun descriptor => (computes_lift _).bind fun _ => computes_u16.bind fun count =>
      ((computes_readAttribute pool).times count.toNat).map fun codes => ?_
  rw [List.map_id]
  rfl

theorem computes_readClass : readClass.Computes id ClassFile.read := by
  refine computes_readHeader.bind fun _ => computes_readPool.bind fun pool => computes_u16.bind fun _ =>
    computes_u16.bind fun name => (computes_lift _).bind fun _ => computes_u16.bind fun _ =>
      computes_u16.bind fun interfaces => ?_
  have hlt := interfaces.toNat_lt
  refine (computes_skip (toNat_interfaceBytes interfaces) (by omega)).bind fun _ => computes_u16.bind fun fields =>
    (computes_skipField.times fields.toNat).bind fun _ => computes_u16.bind fun count =>
      ((computes_readMethod pool).times count.toNat).map fun methods => ?_
  rw [List.map_id]
  rfl

/-! ## Whole class files -/

/-- The sizes of tables, of interfaces and of attributes and the code units of texts are computed without loss. A reader
never gets past the end of its data, whatever is read, and a read that fails leaves it where it was. On every input the
decoder with words has the outcome of the one with unbounded numbers, and every read on the way, and every number of a
constant, was exact. -/
theorem parse_exact :
    (∀ low high : Int32, low ≤ high → ((tableBytes low high).toNat : Int) = (high.toInt - low.toInt + 1) * 4) ∧
    (∀ pairs : Int32, 0 ≤ pairs → ((lookupBytes pairs).toNat : Int) = pairs.toInt * 8) ∧
    (∀ interfaces : UInt16, (interfaceBytes interfaces).toNat = interfaces.toNat * 2) ∧
    (∀ length : UInt32, length.toUInt64.toNat = length.toNat) ∧
    (∀ a b : UInt8, (unitOfTwo a b).toNat = 64 * (a.toNat % 32) + b.toNat % 64) ∧
    (∀ a b c : UInt8, (unitOfThree a b c).toNat = 4096 * (a.toNat % 16) + 64 * (b.toNat % 64) + c.toNat % 64) ∧
    (∀ (s : Slice) (t : List Event) (r : ByteReader), Steps (.new s) t r → r.pos.toNat ≤ r.data.bytes.length) ∧
    ((∀ length, (bytes length).Atomic ∧ (skip length).Atomic) ∧ u8.Atomic ∧ u16.Atomic ∧ u32.Atomic ∧ i32.Atomic) ∧
    ∀ (bs : Bytes) (h : bs.length < 2 ^ 63),
      (parse ⟨bs, h⟩).outcome = ClassFile.decode bs ∧
      Steps (.new ⟨bs, h⟩) (parse ⟨bs, h⟩).trace (parse ⟨bs, h⟩).reader ∧
      ∀ e ∈ (parse ⟨bs, h⟩).trace, e.Exact := by
  refine ⟨fun low high hle => ?_, fun pairs hpos => ?_, fun interfaces => ?_, UInt32.toNat_toUInt64, toNat_unitOfTwo,
    toNat_unitOfThree, fun s t r hsteps => hsteps.valid (ByteReader.valid_new s), ?_, fun bs h => ?_⟩
  · have hle' := Int32.le_iff_toInt_le.mp hle
    rw [toNat_tableBytes hle]
    omega
  · have hpos' : 0 ≤ pairs.toInt := Int32.le_iff_toInt_le.mp hpos
    rw [toNat_lookupBytes hpos]
    omega
  · rw [toNat_interfaceBytes, Nat.mul_comm]
  · have hu32 : u32.Atomic := (atomic_bytes 4).map _
    exact ⟨fun length => ⟨atomic_bytes length, (atomic_bytes length).map _⟩, (atomic_bytes 1).map _,
      (atomic_bytes 2).map _, hu32, hu32.map _⟩
  · have hsteps := readClass.steps (.new ⟨bs, h⟩)
    obtain ⟨hrun, hbounded⟩ := computes_readClass.gives_new ⟨bs, h⟩
    refine ⟨?_, hsteps, hsteps.forall_exact (ByteReader.valid_new _) hbounded⟩
    rw [ClassFile.decode, hrun, parse]
    cases (readClass.run (.new ⟨bs, h⟩)).outcome <;> rfl

/-- A class whose only instruction is a `tableswitch` over all keys, without the table. -/
def widestTable : Bytes :=
  ClassFile.jobWithCode [0xAA, 0, 0, 0, 0, 0, 0, 0, 0x80, 0, 0, 0, 0x7F, 0xFF, 0xFF, 0xFF]

theorem parse_exact_widest_table :
    (tableBytes Int32.minValue Int32.maxValue).toNat = 2 ^ 34 ∧ (lookupBytes Int32.maxValue).toNat = 2 ^ 34 - 8 ∧
      ∃ h : widestTable.length < 2 ^ 63,
        (parse ⟨widestTable, h⟩).outcome = .error (.malformedSwitch 0) ∧ ∀ e ∈ (parse ⟨widestTable, h⟩).trace, e.Exact := by
  obtain ⟨htable, hlookup, -, -, -, -, -, -, hparse⟩ := parse_exact
  have hlow : Int32.minValue.toInt = -2 ^ 31 := by decide
  have hhigh : Int32.maxValue.toInt = 2 ^ 31 - 1 := by decide
  have hfull := htable Int32.minValue Int32.maxValue (by decide)
  have hpairs := hlookup Int32.maxValue (by decide)
  have hdecode : ClassFile.decode widestTable = .error (.malformedSwitch 0) := by decide +kernel
  have hshort : widestTable.length < 2 ^ 63 := by decide +kernel
  obtain ⟨houtcome, -, hexact⟩ := hparse widestTable hshort
  exact ⟨by omega, by omega, hshort, houtcome.trans hdecode, hexact⟩

end MethodScout.Machine
