import MethodScout.ClassFile.Instruction

/-!
# Class files

A class file is decoded from front to back: magic number and version, constant pool, class names, fields, methods.
Of it the name of the class and, for each method, name, access flags and code are kept.
-/

namespace MethodScout

/-- A method: its access flags as one word, and its code, empty if it has none. -/
structure Method where
  name : String
  access : Nat
  code : List Instruction
  deriving DecidableEq, Repr

/-- Whether the method is declared synchronized: bit 5 of its access flags. -/
def Method.isSynchronized (m : Method) : Bool :=
  m.access.testBit 5

/-- A class with its methods in file order. The name has dots, as in `com.acme.Order`. -/
structure ClassFile where
  name : String
  methods : List Method
  deriving DecidableEq, Repr

namespace ClassFile

/-- The word that every class file begins with. -/
def magic : Nat := 0xCAFEBABE

/-- The major versions that can be decoded. -/
def supports (major : Nat) : Bool := 45 ≤ major && major ≤ 69

def readHeader : Decoder Unit := do
  let word ← Decoder.u32
  if word ≠ magic then throw (.badMagic word)
  let minor ← Decoder.u16
  let major ← Decoder.u16
  if !supports major then throw (.unsupportedVersion major minor)

/-- Skips an attribute without a look at it. -/
def skipAttribute : Decoder Unit := do
  Decoder.skip 2
  Decoder.skip (← Decoder.u32)

def skipField : Decoder Unit := do
  Decoder.skip 6
  let _ ← Reader.times (← Decoder.u16) skipAttribute

/-- The code array in the body of a code attribute: it follows four bytes and its length. -/
def codeArray : Decoder Bytes := do
  Decoder.skip 4
  Decoder.bytes (← Decoder.u32)

/-- Reads an attribute of a method. The one named `Code` gives the instructions. -/
def readAttribute (pool : ConstantPool) : Decoder (Option (List Instruction)) := do
  let name ← pool.utf8 (← Decoder.u16)
  let body ← Decoder.bytes (← Decoder.u32)
  if name = "Code" then
    let code ← Reader.readAll codeArray body
    return some (← Instruction.decode pool code)
  else
    return none

/-- Reads a method. Of several code attributes the last one counts. -/
def readMethod (pool : ConstantPool) : Decoder Method := do
  let access ← Decoder.u16
  let name ← pool.utf8 (← Decoder.u16)
  let _ ← pool.utf8 (← Decoder.u16)
  let codes ← Reader.times (← Decoder.u16) (readAttribute pool)
  return ⟨name, access, codes.foldl (fun code found => found.getD code) []⟩

def read : Decoder ClassFile := do
  readHeader
  let pool ← ConstantPool.read
  let _access ← Decoder.u16
  let name ← pool.className (← Decoder.u16)
  let _super ← Decoder.u16
  let interfaces ← Decoder.u16
  Decoder.skip (2 * interfaces)
  let _ ← Reader.times (← Decoder.u16) skipField
  let methods ← Reader.times (← Decoder.u16) (readMethod pool)
  return ⟨Text.replaceChars (· == '/') '.' name, methods⟩

/-- The class that the bytes hold. Bytes after the last method are ignored. -/
def decode (bs : Bytes) : Except DecodeFault ClassFile :=
  Reader.readAll read bs

end ClassFile

end MethodScout
