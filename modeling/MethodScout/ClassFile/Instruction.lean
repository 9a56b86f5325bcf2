import MethodScout.ClassFile.ConstantPool
import MethodScout.ClassFile.Descriptor

/-!
# Instructions

A code array is a sequence of instructions, each an opcode and its operands. `Instruction.form?` says how the operands
of an opcode are laid out, `Instruction.decode` reads a whole code array. Of an instruction only what methods are
judged by is kept.
-/

namespace MethodScout

inductive CallKind where
  | virtual
  | special
  | static
  | interface
  | dynamic
  deriving DecidableEq, Repr

/-- A call of a method. A dynamic call has no owner. -/
structure Call where
  kind : CallKind
  owner : Option String
  name : String
  descriptor : String
  returnType : String
  deriving DecidableEq, Repr

inductive SwitchKind where
  | table
  | lookup
  deriving DecidableEq, Repr

inductive Instruction where
  | monitorEnter
  | call (call : Call)
  | conditionalBranch
  | switch (kind : SwitchKind)
  | other (opcode : UInt8)
  deriving DecidableEq, Repr

namespace Instruction

/-- The layouts of operands. -/
inductive Form where
  /-- A fixed number of operand bytes. -/
  | plain (width : Nat)
  | monitorEnter
  | call (kind : CallKind)
  /-- A jump that depends on a test, with a two-byte target. -/
  | branch
  | tableSwitch
  | lookupSwitch
  /-- An instruction with operands of twice their usual width. -/
  | wide
  deriving DecidableEq, Repr

/-- The forms in the order of the opcodes, each with the last opcode that has it. -/
def forms : List (Nat × Form) :=
  [(0x0F, .plain 0), (0x10, .plain 1), (0x11, .plain 2), (0x12, .plain 1), (0x14, .plain 2), (0x19, .plain 1),
   (0x35, .plain 0), (0x3A, .plain 1), (0x83, .plain 0), (0x84, .plain 2), (0x98, .plain 0), (0xA6, .branch),
   (0xA8, .plain 2), (0xA9, .plain 1), (0xAA, .tableSwitch), (0xAB, .lookupSwitch), (0xB1, .plain 0),
   (0xB5, .plain 2), (0xB6, .call .virtual), (0xB7, .call .special), (0xB8, .call .static),
   (0xB9, .call .interface), (0xBA, .call .dynamic), (0xBB, .plain 2), (0xBC, .plain 1), (0xBD, .plain 2),
   (0xBF, .plain 0), (0xC1, .plain 2), (0xC2, .monitorEnter), (0xC3, .plain 0), (0xC4, .wide), (0xC5, .plain 3),
   (0xC7, .branch), (0xC9, .plain 4)]

/-- The form of an opcode; the opcodes from 0xCA on have none. -/
def form? (opcode : UInt8) : Option Form :=
  (forms.find? fun f => opcode.toNat ≤ f.1).map Prod.snd

/-- The opcode of the instruction that adds a constant to a local variable. -/
def increment : Nat := 0x84

/-! ## Calls -/

/-- The call that a constant pool index stands for. -/
def resolve (pool : ConstantPool) (kind : CallKind) (index : Nat) : Except DecodeFault Call :=
  match kind with
  | .dynamic => do
    let (name, descriptor) ← pool.invokeDynamic index
    return ⟨kind, none, name, descriptor, ← Descriptor.returnType descriptor⟩
  | _ => do
    let (owner, name, descriptor) ← pool.methodRef index
    return ⟨kind, some owner, name, descriptor, ← Descriptor.returnType descriptor⟩

/-- How many operand bytes of a call follow the index. -/
def unusedBytes : CallKind → Nat
  | .interface | .dynamic => 2
  | _ => 0

def readCall (pool : ConstantPool) (kind : CallKind) : Decoder Instruction := do
  let index ← Decoder.u16
  Decoder.skip (unusedBytes kind)
  return .call (← resolve pool kind index)

/-! ## Switches -/

/-- Skips to the next offset that is a multiple of four. -/
def align : Decoder Unit := do
  Decoder.skip ((4 - (← Reader.position) % 4) % 4)

/-- Skips the table of the switch that starts at `start`. -/
def skipTable (start size : Nat) : Decoder Unit := do
  let _ ← Reader.take (fun _ => .malformedSwitch start) size

/-- A default target, the least and the greatest key, and a target for each key between them. -/
def readTableSwitch (start : Nat) : Decoder Instruction := do
  align
  Decoder.skip 4
  let low ← Decoder.i32
  let high ← Decoder.i32
  if high < low then throw (.malformedSwitch start)
  skipTable start (4 * (high - low + 1).toNat)
  return .switch .table

/-- A default target, the number of keys, and each key with its target. -/
def readLookupSwitch (start : Nat) : Decoder Instruction := do
  align
  Decoder.skip 4
  let count ← Decoder.i32
  if count < 0 then throw (.malformedSwitch start)
  skipTable start (8 * count.toNat)
  return .switch .lookup

/-! ## Whole instructions -/

/-- Reads the operands of an opcode that stands at `start`. -/
def readOperands (pool : ConstantPool) (start : Nat) (opcode : UInt8) : Decoder Instruction :=
  match form? opcode with
  | none => throw (.invalidOpcode start opcode)
  | some .monitorEnter => return .monitorEnter
  | some (.call kind) => readCall pool kind
  | some .tableSwitch => readTableSwitch start
  | some .lookupSwitch => readLookupSwitch start
  | some .branch => do
    Decoder.skip 2
    return .conditionalBranch
  | some .wide => do
    let widened ← Decoder.u8
    Decoder.skip (if widened = increment then 4 else 2)
    return .other opcode
  | some (.plain width) => do
    Decoder.skip width
    return .other opcode

theorem shrinks_align : align.Shrinks :=
  Reader.shrinks_position.bind fun _ => Decoder.shrinks_skip _

theorem shrinks_skipTable (start size : Nat) : (skipTable start size).Shrinks :=
  (Reader.shrinks_take _ _).bind fun _ => Reader.shrinks_pure _

theorem shrinks_readCall (pool : ConstantPool) (kind : CallKind) : (readCall pool kind).Shrinks :=
  Decoder.shrinks_u16.bind fun _ => (Decoder.shrinks_skip _).bind fun _ =>
    (Reader.shrinks_lift _).bind fun _ => Reader.shrinks_pure _

theorem shrinks_readTableSwitch (start : Nat) : (readTableSwitch start).Shrinks := by
  refine shrinks_align.bind fun _ => (Decoder.shrinks_skip _).bind fun _ => Decoder.shrinks_i32.bind fun low =>
    Decoder.shrinks_i32.bind fun high => ?_
  split
  · exact (Reader.shrinks_throw _).bind fun _ => (shrinks_skipTable _ _).bind fun _ => Reader.shrinks_pure _
  · exact (Reader.shrinks_pure _).bind fun _ => (shrinks_skipTable _ _).bind fun _ => Reader.shrinks_pure _

theorem shrinks_readLookupSwitch (start : Nat) : (readLookupSwitch start).Shrinks := by
  refine shrinks_align.bind fun _ => (Decoder.shrinks_skip _).bind fun _ => Decoder.shrinks_i32.bind fun count => ?_
  split
  · exact (Reader.shrinks_throw _).bind fun _ => (shrinks_skipTable _ _).bind fun _ => Reader.shrinks_pure _
  · exact (Reader.shrinks_pure _).bind fun _ => (shrinks_skipTable _ _).bind fun _ => Reader.shrinks_pure _

theorem shrinks_readOperands (pool : ConstantPool) (start : Nat) (opcode : UInt8) :
    (readOperands pool start opcode).Shrinks := by
  unfold readOperands
  split
  · exact Reader.shrinks_throw _
  · exact Reader.shrinks_pure _
  · exact shrinks_readCall _ _
  · exact shrinks_readTableSwitch _
  · exact shrinks_readLookupSwitch _
  · exact (Decoder.shrinks_skip _).bind fun _ => Reader.shrinks_pure _
  · exact Decoder.shrinks_u8.bind fun _ => (Decoder.shrinks_skip _).bind fun _ => Reader.shrinks_pure _
  · exact (Decoder.shrinks_skip _).bind fun _ => Reader.shrinks_pure _

/-- Reads instructions up to the end of the code, after those already read (the latest first). -/
def decodeAfter (pool : ConstantPool) (read : List Instruction) (c : Cursor) :
    Except DecodeFault (List Instruction) :=
  match _ : c.rest with
  | [] => .ok read.reverse
  | opcode :: rest =>
    match _ : readOperands pool c.offset opcode ⟨c.offset + 1, rest⟩ with
    | .error fault => .error fault
    | .ok (instruction, c') => decodeAfter pool (instruction :: read) c'
termination_by c.rest.length
decreasing_by
  have h := shrinks_readOperands _ _ _ _ _ _ ‹_›
  simp only [‹c.rest = _›, List.length_cons]
  exact Nat.lt_succ_of_le h

/-- The instructions of a code array. -/
def decode (pool : ConstantPool) (code : Bytes) : Except DecodeFault (List Instruction) :=
  decodeAfter pool [] ⟨0, code⟩

end Instruction

end MethodScout
