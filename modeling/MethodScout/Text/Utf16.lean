import MethodScout.Text.Utf8

/-!
# UTF-16 code units

A high surrogate followed by a low one is a supplementary character; a surrogate without its partner becomes U+FFFD.
-/

namespace MethodScout.Text.Utf16

def isHighSurrogate (unit : UInt16) : Bool := 0xD800 ≤ unit && unit ≤ 0xDBFF

def isLowSurrogate (unit : UInt16) : Bool := 0xDC00 ≤ unit && unit ≤ 0xDFFF

/-- The supplementary character of a surrogate pair. -/
def pair (high low : UInt16) : Char :=
  Char.ofNat (0x10000 + 0x400 * (high.toNat - 0xD800) + (low.toNat - 0xDC00))

/-- What has been decoded, the latest first, and a high surrogate that waits for its partner. -/
structure Progress where
  decoded : List Char
  waiting : Option UInt16
  deriving DecidableEq, Repr

/-- Reads a unit that no surrogate waits for. -/
def start (decoded : List Char) (unit : UInt16) : Progress :=
  if isHighSurrogate unit then ⟨decoded, some unit⟩
  else if isLowSurrogate unit then ⟨replacement :: decoded, none⟩
  else ⟨Char.ofNat unit.toNat :: decoded, none⟩

def step (p : Progress) (unit : UInt16) : Progress :=
  match p.waiting with
  | none => start p.decoded unit
  | some high =>
    if isLowSurrogate unit then ⟨pair high unit :: p.decoded, none⟩
    else start (replacement :: p.decoded) unit

def Progress.finish (p : Progress) : List Char :=
  match p.waiting with
  | none => p.decoded.reverse
  | some _ => (replacement :: p.decoded).reverse

/-- The characters that the units stand for, with U+FFFD for each unpaired surrogate. -/
def decodeLossy (units : List UInt16) : List Char :=
  (units.foldl step ⟨[], none⟩).finish

end MethodScout.Text.Utf16
