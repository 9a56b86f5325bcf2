/-!
# Bytes

Sequences of bytes in file order, and the numbers that they stand for.
-/

namespace MethodScout

/-- Bytes in file order. -/
abbrev Bytes := List UInt8

namespace Bytes

/-- Whether at least `n` bytes are there. Looks at no more than `n` of them. -/
def holds : Nat → Bytes → Bool
  | 0, _ => true
  | _ + 1, [] => false
  | n + 1, _ :: bs => holds n bs

@[simp]
theorem holds_iff {n : Nat} {bs : Bytes} : holds n bs = true ↔ n ≤ bs.length := by
  induction n generalizing bs with
  | zero => simp [holds]
  | succ n ih => cases bs <;> simp [holds, ih]

/-- The number whose digits to base 256 are the bytes, the most significant first. -/
def bigEndian (bs : Bytes) : Nat :=
  bs.foldl (fun n b => 256 * n + b.toNat) 0

/-- The number whose digits to base 256 are the bytes, the least significant first. -/
def littleEndian : Bytes → Nat
  | [] => 0
  | b :: bs => b.toNat + 256 * littleEndian bs

end Bytes

/-- The number that a 32-bit word stands for in two's complement. -/
def signed32 (word : Nat) : Int :=
  if word < 0x80000000 then word else word - 0x100000000

end MethodScout
