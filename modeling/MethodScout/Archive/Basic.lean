import MethodScout.Archive.Checksum
import MethodScout.Archive.Inflate
import MethodScout.Reader
import MethodScout.Resource
import MethodScout.NameSet
import MethodScout.Text.CodePage437
import MethodScout.Text.Utf8

/-!
# Zip archives

An archive is read from its end: the end record tells where the directory stands, the directory tells the name, the
place and the checksum of each entry. Bytes may stand before the archive, so places are counted from where the
directory really is.
-/

namespace MethodScout

namespace Archive

/-! ## Faults -/

/-- Why bytes are not an archive. -/
inductive Fault where
  | tooShort
  | noEndRecord
  | unexpectedEnd
  | severalDisks
  | directoryOutside
  | badDirectoryHeader
  deriving DecidableEq, Repr

def Fault.message : Fault → String
  | .tooShort => "invalid Zip archive: Invalid zip header"
  | .noEndRecord => "invalid Zip archive: Could not find central directory end"
  | .unexpectedEnd => "failed to fill whole buffer"
  | .severalDisks => "unsupported Zip archive: Support for multi-disk files is not implemented"
  | .directoryOutside => "invalid Zip archive: Invalid central directory size or offset"
  | .badDirectoryHeader => "invalid Zip archive: Invalid Central Directory header"

/-- Why an entry cannot be read. -/
inductive EntryFault where
  | notFound
  | encrypted
  | badLocalHeader
  | unexpectedEnd
  | unknownMethod
  | corrupt
  | incomplete
  | badChecksum
  deriving DecidableEq, Repr

def EntryFault.message : EntryFault → String
  | .notFound => "specified file not found in archive"
  | .encrypted => "unsupported Zip archive: Password required to decrypt file"
  | .badLocalHeader => "invalid Zip archive: Invalid local file header"
  | .unexpectedEnd => "failed to fill whole buffer"
  | .unknownMethod => "unsupported Zip archive: Compression method not supported"
  | .corrupt => "corrupt deflate stream"
  | .incomplete => "incomplete deflate stream"
  | .badChecksum => "Invalid checksum"

/-! ## The end record -/

def endSignature : Bytes := [0x50, 0x4B, 0x05, 0x06]

def directorySignature : Bytes := [0x50, 0x4B, 0x01, 0x02]

def localSignature : Bytes := [0x50, 0x4B, 0x03, 0x04]

/-- The size of an end record without its comment. -/
def endRecordSize : Nat := 22

/-- The greatest distance of the end record from where it stands without a comment. -/
def longestComment : Nat := 0xFFFF

/-- The last place where an end record may stand and its signature does, with the bytes from there on. `found` is the
last one before `position`. -/
def lastEndRecord? (size : Nat) : (position : Nat) → (found : Option (Nat × Bytes)) → Bytes → Option (Nat × Bytes)
  | _, found, [] => found
  | position, found, b :: rest =>
    let here := position + endRecordSize ≤ size ∧ size ≤ position + endRecordSize + longestComment ∧
      endSignature.isPrefixOf (b :: rest) = true
    lastEndRecord? size (position + 1) (if here then some (position, b :: rest) else found) rest

/-- What the end record says. -/
structure EndRecord where
  disk : Nat
  directoryDisk : Nat
  entriesHere : Nat
  entriesInAll : Nat
  directorySize : Nat
  directoryOffset : Nat
  deriving DecidableEq, Repr

/-- Whether some field is all ones, which stands for a number that does not fit. -/
def EndRecord.overflows (r : EndRecord) : Bool :=
  [r.disk, r.directoryDisk, r.entriesHere, r.entriesInAll].contains 0xFFFF ||
    [r.directorySize, r.directoryOffset].contains 0xFFFFFFFF

/-- An unsigned number of `n` bytes. -/
def number {ε : Type} (short : ε) (n : Nat) : Reader ε Nat := do
  return (← Reader.take (fun _ => short) n).littleEndian

def skip {ε : Type} (short : ε) (n : Nat) : Reader ε Unit := do
  let _ ← Reader.take (fun _ => short) n

def readEndRecord : Reader Fault EndRecord := do
  skip .unexpectedEnd 4
  let disk ← number .unexpectedEnd 2
  let directoryDisk ← number .unexpectedEnd 2
  let entriesHere ← number .unexpectedEnd 2
  let entriesInAll ← number .unexpectedEnd 2
  let directorySize ← number .unexpectedEnd 4
  let directoryOffset ← number .unexpectedEnd 4
  skip .unexpectedEnd (← number .unexpectedEnd 2)
  return ⟨disk, directoryDisk, entriesHere, entriesInAll, directorySize, directoryOffset⟩

/-! ## The directory -/

/-- What the directory says of an entry. -/
structure Entry where
  name : String
  isEncrypted : Bool
  method : Nat
  checksum : UInt32
  size : Nat
  /-- Where the local header stands, counted from the start of the bytes. -/
  place : Nat
  deriving DecidableEq, Repr

/-- Reads an entry; places in the directory are `shift` too small. -/
def readEntry (shift : Nat) : Reader Fault Entry := do
  if (← Reader.take (fun _ => .unexpectedEnd) 4) ≠ directorySignature then throw .badDirectoryHeader
  skip .unexpectedEnd 4
  let flags ← number .unexpectedEnd 2
  let method ← number .unexpectedEnd 2
  skip .unexpectedEnd 4
  let checksum ← number .unexpectedEnd 4
  let size ← number .unexpectedEnd 4
  skip .unexpectedEnd 4
  let nameLength ← number .unexpectedEnd 2
  let extraLength ← number .unexpectedEnd 2
  let commentLength ← number .unexpectedEnd 2
  skip .unexpectedEnd 8
  let offset ← number .unexpectedEnd 4
  let name ← Reader.take (fun _ => .unexpectedEnd) nameLength
  skip .unexpectedEnd extraLength
  skip .unexpectedEnd commentLength
  return {
    name := if flags.testBit 11 then Text.Utf8.decodeLossy name else Text.CodePage437.decode name
    isEncrypted := flags.testBit 0
    method := method
    checksum := UInt32.ofNat checksum
    size := size
    place := offset + shift }

end Archive

/-- The bytes of an archive with its directory. -/
structure Archive where
  bytes : Bytes
  entries : List Archive.Entry
  deriving DecidableEq, Repr

namespace Archive

/-- Reads the directory of an archive. -/
def ofBytes (bs : Bytes) : Except Fault Archive := do
  let size := bs.length
  if size < endRecordSize then throw .tooShort
  match lastEndRecord? size 0 none bs with
  | none => throw .noEndRecord
  | some (position, tail) =>
    let record ← Reader.readAll readEndRecord tail
    if !record.overflows && record.disk != record.directoryDisk then throw .severalDisks
    if position < record.directorySize + record.directoryOffset then throw .directoryOutside
    let shift := position - record.directorySize - record.directoryOffset
    let directory := bs.drop (record.directoryOffset + shift)
    return ⟨bs, ← Reader.readAll (Reader.times record.entriesHere (readEntry shift)) directory⟩

/-- The names of the class files, in increasing order. -/
def classNames (a : Archive) : List String :=
  (NameSet.ofList ((a.entries.map Entry.name).filter (Text.endsWith Resource.ending))).toList

/-- The last entry of a name. -/
def find? (a : Archive) (name : String) : Option Entry :=
  (a.entries.filter fun e => e.name = name).getLast?

/-- How many bytes the local header of an entry takes. Its name and extra field may differ from those in the
directory. -/
def localHeaderSize : Reader EntryFault Nat := do
  if (← Reader.take (fun _ => .unexpectedEnd) 4) ≠ localSignature then throw .badLocalHeader
  skip .unexpectedEnd 22
  let nameLength ← number .unexpectedEnd 2
  let extraLength ← number .unexpectedEnd 2
  return 30 + nameLength + extraLength

/-- The bytes that the data of an entry stands for. -/
def expand (method : Nat) (data : Bytes) : Except EntryFault Bytes :=
  match method with
  | 0 => .ok data
  | 8 =>
    match inflate data with
    | .ok bs => .ok bs
    | .error .corrupt => .error .corrupt
    | .error .incomplete => .error .incomplete
  | _ => .error .unknownMethod

/-- The content of an entry, if it has the checksum that the directory gives. -/
def read (a : Archive) (name : String) : Except EntryFault Bytes := do
  match a.find? name with
  | none => throw .notFound
  | some e =>
    if e.isEncrypted then throw .encrypted
    let header ← Reader.readAll localHeaderSize (a.bytes.drop e.place)
    let content ← expand e.method ((a.bytes.drop (e.place + header)).take e.size)
    if crc32 content ≠ e.checksum then throw .badChecksum
    return content

end Archive

end MethodScout
