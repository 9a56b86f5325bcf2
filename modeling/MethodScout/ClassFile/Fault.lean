import MethodScout.Reader
import MethodScout.Text.Basic

/-!
# Why a class file cannot be decoded
-/

namespace MethodScout

/-- The kinds of constant that other parts of a class file refer to. -/
inductive ConstantKind where
  | utf8
  | classRef
  | nameAndType
  | methodRef
  | invokeDynamic
  deriving DecidableEq, Repr

def ConstantKind.label : ConstantKind → String
  | .utf8 => "Utf8"
  | .classRef => "Class"
  | .nameAndType => "NameAndType"
  | .methodRef => "Methodref"
  | .invokeDynamic => "InvokeDynamic"

/-- The reasons for which bytes are not a class file. Offsets count from the start of what was being read: the file,
a code attribute or a code array. -/
inductive DecodeFault where
  | truncated (read : Shortfall)
  | badMagic (word : Nat)
  | unsupportedVersion (major minor : Nat)
  | badConstantIndex (index : Nat)
  | unexpectedConstant (index : Nat) (expected : ConstantKind)
  | unknownConstantTag (index tag : Nat)
  | invalidOpcode (offset : Nat) (opcode : UInt8)
  | malformedSwitch (offset : Nat)
  | malformedDescriptor (descriptor : String)
  deriving DecidableEq, Repr

def DecodeFault.message : DecodeFault → String
  | .truncated read =>
    "unexpected end of data at offset " ++ read.offset.repr ++ " (wanted " ++ read.wanted.repr ++ " bytes)"
  | .badMagic word => "bad magic number 0x" ++ Text.upperHex 8 word
  | .unsupportedVersion major minor => "unsupported class file version " ++ major.repr ++ "." ++ minor.repr
  | .badConstantIndex index => "constant pool index " ++ index.repr ++ " is out of range"
  | .unexpectedConstant index expected =>
    "constant pool entry " ++ index.repr ++ " is not a " ++ expected.label
  | .unknownConstantTag index tag => "unknown constant pool tag " ++ tag.repr ++ " at index " ++ index.repr
  | .invalidOpcode offset opcode =>
    "invalid opcode 0x" ++ Text.upperHex 2 opcode.toNat ++ " at bytecode offset " ++ offset.repr
  | .malformedSwitch offset => "malformed switch at bytecode offset " ++ offset.repr
  | .malformedDescriptor descriptor => "malformed method descriptor: " ++ descriptor

/-- A reader of class file bytes. -/
abbrev Decoder := Reader DecodeFault

namespace Decoder

def bytes (n : Nat) : Decoder Bytes := Reader.take .truncated n

def skip (n : Nat) : Decoder Unit := do
  let _ ← bytes n

/-- An unsigned number of `n` bytes. -/
def number (n : Nat) : Decoder Nat := do
  return (← bytes n).bigEndian

def u8 : Decoder Nat := number 1

def u16 : Decoder Nat := number 2

def u32 : Decoder Nat := number 4

/-- A signed number of four bytes. -/
def i32 : Decoder Int := do
  return signed32 (← u32)

theorem shrinks_bytes (n : Nat) : (bytes n).Shrinks := Reader.shrinks_take _ n

theorem shrinks_skip (n : Nat) : (skip n).Shrinks :=
  (shrinks_bytes n).bind fun _ => Reader.shrinks_pure _

theorem shrinks_number (n : Nat) : (number n).Shrinks :=
  (shrinks_bytes n).bind fun _ => Reader.shrinks_pure _

theorem shrinks_u8 : u8.Shrinks := shrinks_number 1

theorem shrinks_u16 : u16.Shrinks := shrinks_number 2

theorem shrinks_i32 : i32.Shrinks :=
  (shrinks_number 4).bind fun _ => Reader.shrinks_pure _

end Decoder

end MethodScout
