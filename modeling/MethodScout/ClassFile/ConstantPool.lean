import MethodScout.ClassFile.Fault
import MethodScout.Text.ModifiedUtf8

/-!
# The constant pool

A table of constants that the rest of a class file refers to by index. Index 0 is never used, and a long or double
takes two slots of which the second is not usable.
-/

namespace MethodScout

/-- A constant, as far as method references need it. -/
inductive Constant where
  | utf8 (text : String)
  | classRef (name : Nat)
  | nameAndType (name descriptor : Nat)
  | methodRef (owner nameAndType : Nat)
  | invokeDynamic (nameAndType : Nat)
  /-- A constant that no method reference uses. -/
  | other
  /-- A long or a double, which takes two slots. -/
  | wide
  deriving DecidableEq, Repr

/-- The constants by index; `none` is a slot that may not be referred to. -/
structure ConstantPool where
  slots : Array (Option Constant)
  deriving DecidableEq, Repr

namespace ConstantPool

def empty : ConstantPool := ⟨#[]⟩

/-! ## Reading -/

/-- Reads what follows the tag of the constant at `index`. -/
def readPayload (index : Nat) : (tag : Nat) → Decoder Constant
  | 1 => return .utf8 (Text.ModifiedUtf8.decode (← Decoder.bytes (← Decoder.u16)))
  | 3 | 4 | 9 | 17 => do
    Decoder.skip 4
    return .other
  | 5 | 6 => do
    Decoder.skip 8
    return .wide
  | 7 => return .classRef (← Decoder.u16)
  | 8 | 16 | 19 | 20 => do
    Decoder.skip 2
    return .other
  | 10 | 11 => return .methodRef (← Decoder.u16) (← Decoder.u16)
  | 12 => return .nameAndType (← Decoder.u16) (← Decoder.u16)
  | 15 => do
    Decoder.skip 3
    return .other
  | 18 => do
    Decoder.skip 2
    return .invokeDynamic (← Decoder.u16)
  | tag => throw (.unknownConstantTag index tag)

/-- Reads the constant at `index`: a tag and what that tag stands before. -/
def readConstant (index : Nat) : Decoder Constant := do
  readPayload index (← Decoder.u8)

/-- Reads constants until `missing` more slots are filled. The second slot of a long or double in the last slot is
left out. -/
def readSlots : (missing : Nat) → Array (Option Constant) → Decoder (Array (Option Constant))
  | 0, slots => return slots
  | 1, slots => return slots.push (some (← readConstant slots.size))
  | missing + 2, slots => do
    let constant ← readConstant slots.size
    if constant = .wide then readSlots missing ((slots.push (some constant)).push none)
    else readSlots (missing + 1) (slots.push (some constant))

/-- Reads the declared number of slots and then the constants. -/
def read : Decoder ConstantPool := do
  let count ← Decoder.u16
  return ⟨← readSlots (count - 1) #[none]⟩

/-! ## Following references -/

/-- The constant at an index that may be referred to. -/
def get (pool : ConstantPool) (index : Nat) : Except DecodeFault Constant :=
  match pool.slots[index]? with
  | some (some constant) => .ok constant
  | _ => .error (.badConstantIndex index)

def utf8 (pool : ConstantPool) (index : Nat) : Except DecodeFault String := do
  match ← pool.get index with
  | .utf8 text => return text
  | _ => throw (.unexpectedConstant index .utf8)

/-- The name of a class, with slashes. -/
def className (pool : ConstantPool) (index : Nat) : Except DecodeFault String := do
  match ← pool.get index with
  | .classRef name => pool.utf8 name
  | _ => throw (.unexpectedConstant index .classRef)

/-- The name and the descriptor of a method. -/
def nameAndType (pool : ConstantPool) (index : Nat) : Except DecodeFault (String × String) := do
  match ← pool.get index with
  | .nameAndType name descriptor => return (← pool.utf8 name, ← pool.utf8 descriptor)
  | _ => throw (.unexpectedConstant index .nameAndType)

/-- The owner, the name and the descriptor of a method of a class or an interface. -/
def methodRef (pool : ConstantPool) (index : Nat) : Except DecodeFault (String × String × String) := do
  match ← pool.get index with
  | .methodRef owner nameAndType => return (← pool.className owner, ← pool.nameAndType nameAndType)
  | _ => throw (.unexpectedConstant index .methodRef)

/-- The name and the descriptor of a call site that is linked when it is first run. -/
def invokeDynamic (pool : ConstantPool) (index : Nat) : Except DecodeFault (String × String) := do
  match ← pool.get index with
  | .invokeDynamic nameAndType => pool.nameAndType nameAndType
  | _ => throw (.unexpectedConstant index .invokeDynamic)

end ConstantPool

end MethodScout
