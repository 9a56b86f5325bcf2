import MethodScout.Bytes

/-!
# UTF-8

Bytes are read one at a time. A byte either continues the character that has been begun, begins a new one, or fits
neither; a stretch of bytes that begins no character, or breaks one off, counts as one malformed stretch. Strict
decoding refuses a malformed stretch, lossy decoding writes U+FFFD for it.
-/

namespace MethodScout.Text

/-- The bytes of a text in UTF-8. -/
def utf8 (text : String) : Bytes := text.toUTF8.data.toList

/-- The character that stands for what cannot be decoded. -/
def replacement : Char := '�'

namespace Utf8

/-- A character of which more bytes are owed; the next one has to lie between `low` and `high`. -/
structure Unfinished where
  value : Nat
  owed : Nat
  low : Nat
  high : Nat
  deriving DecidableEq, Repr

/-- What has been decoded, the latest first (`none` is a malformed stretch), and the character under way. -/
structure Progress where
  decoded : List (Option Char)
  unfinished : Option Unfinished
  deriving DecidableEq, Repr

/-- Reads a byte that begins a character. -/
def start (decoded : List (Option Char)) (byte : UInt8) : Progress :=
  let b := byte.toNat
  if b < 0x80 then ⟨some (Char.ofNat b) :: decoded, none⟩
  else if b < 0xC2 then ⟨none :: decoded, none⟩
  else if b < 0xE0 then ⟨decoded, some ⟨b - 0xC0, 1, 0x80, 0xBF⟩⟩
  else if b = 0xE0 then ⟨decoded, some ⟨0, 2, 0xA0, 0xBF⟩⟩
  else if b = 0xED then ⟨decoded, some ⟨0xD, 2, 0x80, 0x9F⟩⟩
  else if b < 0xF0 then ⟨decoded, some ⟨b - 0xE0, 2, 0x80, 0xBF⟩⟩
  else if b = 0xF0 then ⟨decoded, some ⟨0, 3, 0x90, 0xBF⟩⟩
  else if b < 0xF4 then ⟨decoded, some ⟨b - 0xF0, 3, 0x80, 0xBF⟩⟩
  else if b = 0xF4 then ⟨decoded, some ⟨4, 3, 0x80, 0x8F⟩⟩
  else ⟨none :: decoded, none⟩

/-- Reads one byte. One that cannot continue a character breaks it off and begins the next. -/
def step (p : Progress) (byte : UInt8) : Progress :=
  match p.unfinished with
  | none => start p.decoded byte
  | some u =>
    let b := byte.toNat
    if u.low ≤ b ∧ b ≤ u.high then
      let value := 64 * u.value + (b - 0x80)
      if u.owed ≤ 1 then ⟨some (Char.ofNat value) :: p.decoded, none⟩
      else ⟨p.decoded, some ⟨value, u.owed - 1, 0x80, 0xBF⟩⟩
    else start (none :: p.decoded) byte

/-- Everything decoded, in order. A character still under way is broken off. -/
def Progress.finish (p : Progress) : List (Option Char) :=
  match p.unfinished with
  | none => p.decoded.reverse
  | some _ => (none :: p.decoded).reverse

/-- The characters that the bytes stand for, `none` for each malformed stretch. -/
def characters (bs : Bytes) : List (Option Char) :=
  (bs.foldl step ⟨[], none⟩).finish

/-- The text that the bytes stand for, if no stretch is malformed. -/
def decode? (bs : Bytes) : Option String :=
  ((characters bs).mapM id).map String.ofList

/-- The text that the bytes stand for, with U+FFFD for each malformed stretch. -/
def decodeLossy (bs : Bytes) : String :=
  String.ofList ((characters bs).map fun c => c.getD replacement)

end Utf8

end MethodScout.Text
