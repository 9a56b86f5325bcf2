import MethodScout.Text.Utf16

/-!
# Modified UTF-8

Class files write each UTF-16 code unit of a text in one to three bytes: zero and the units up to U+07FF in two bytes
where one byte does not do, surrogates singly in three. Bytes that are plain UTF-8 are taken as that; all others are
read unit by unit.
-/

namespace MethodScout.Text.ModifiedUtf8

/-- The bytes of one code unit. -/
def encodeUnit (unit : UInt16) : Bytes :=
  let n := unit.toNat
  if n ≠ 0 ∧ n < 0x80 then [UInt8.ofNat n]
  else if n < 0x800 then [UInt8.ofNat (0xC0 + n / 64), UInt8.ofNat (0x80 + n % 64)]
  else [UInt8.ofNat (0xE0 + n / 4096), UInt8.ofNat (0x80 + n / 64 % 64), UInt8.ofNat (0x80 + n % 64)]

def encode (units : List UInt16) : Bytes :=
  units.flatMap encodeUnit

/-- The low six bits of a byte. -/
def sixBits (b : UInt8) : UInt16 := (b &&& 0x3F).toUInt16

/-- The code units that the bytes stand for, after those already read (the latest first). The first byte alone tells
how many belong to a unit; a byte that begins none, or whose unit is cut off, stands for U+FFFD. -/
def unitsAfter (read : List UInt16) : Bytes → List UInt16
  | [] => read.reverse
  | a :: bs =>
    if a &&& 0x80 = 0 then unitsAfter (a.toUInt16 :: read) bs
    else if a &&& 0xE0 = 0xC0 then
      match bs with
      | b :: rest => unitsAfter (((a &&& 0x1F).toUInt16 <<< 6 ||| sixBits b) :: read) rest
      | [] => unitsAfter (0xFFFD :: read) []
    else if a &&& 0xF0 = 0xE0 then
      match bs with
      | b :: c :: rest =>
        unitsAfter (((a &&& 0x0F).toUInt16 <<< 12 ||| sixBits b <<< 6 ||| sixBits c) :: read) rest
      | [b] => unitsAfter (0xFFFD :: read) [b]
      | [] => unitsAfter (0xFFFD :: read) []
    else unitsAfter (0xFFFD :: read) bs

/-- The code units that the bytes stand for. -/
def units (bs : Bytes) : List UInt16 := unitsAfter [] bs

/-- The text that the bytes stand for when they are read unit by unit. -/
def decodeUnits (bs : Bytes) : String :=
  String.ofList (Utf16.decodeLossy (units bs))

/-- The text that the bytes stand for. -/
def decode (bs : Bytes) : String :=
  match Utf8.decode? bs with
  | some text => text
  | none => decodeUnits bs

end MethodScout.Text.ModifiedUtf8
