import MethodScout.Bytes

/-!
# CRC-32

The checksum of archive entries: the remainder of a polynomial division over the bits, with the polynomial
0xEDB88320 in reversed bit order.
-/

namespace MethodScout.Archive

/-- Divides one more bit. -/
def crcShift (crc : UInt32) : UInt32 :=
  if crc &&& 1 = 0 then crc >>> 1 else (crc >>> 1) ^^^ 0xEDB88320

/-- Takes in one byte. -/
def crcStep (crc : UInt32) (b : UInt8) : UInt32 :=
  Nat.repeat crcShift 8 (crc ^^^ b.toUInt32)

def crc32 (bs : Bytes) : UInt32 :=
  bs.foldl crcStep 0xFFFFFFFF ^^^ 0xFFFFFFFF

-- the check value of the checksum, which is that of the digits from 1 to 9
example : crc32 [0x31, 0x32, 0x33, 0x34, 0x35, 0x36, 0x37, 0x38, 0x39] = 0xCBF43926 := by decide +kernel

end MethodScout.Archive
