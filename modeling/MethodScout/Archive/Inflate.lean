import MethodScout.Bytes

/-!
# Deflate

Deflated data is a sequence of blocks. A block is stored as it is, or it is a sequence of codes for single bytes and
for copies of bytes already written. The codes are prefix codes, fixed ones or ones that the block describes by the
lengths of its code words. Bytes before the first one written count as zero.
-/

namespace MethodScout.Archive

inductive InflateFault where
  /-- The data breaks a rule of the format. -/
  | corrupt
  /-- The data ends before its last block does. -/
  | incomplete
  deriving DecidableEq, Repr

/-- Reads bits, the least significant one of each byte first. -/
abbrev BitReader := StateT (List Bool) (Except InflateFault)

namespace Inflate

def bits (bs : Bytes) : List Bool :=
  bs.flatMap fun b => (List.range 8).map b.toNat.testBit

def bit : BitReader Bool
  | [] => .error .incomplete
  | b :: rest => .ok (b, rest)

/-- A number of `n` bits, the least significant one first. -/
def number : (n : Nat) → BitReader Nat
  | 0 => return 0
  | n + 1 => do
    let low ← bit
    return low.toNat + 2 * (← number n)

/-- Skips to the next byte. -/
def align : BitReader Unit := fun bs => .ok ((), bs.drop (bs.length % 8))

/-! ## Prefix codes -/

/-- A prefix code: how many code words there are of each length from 1 on, and the symbols in the order of their code
words. -/
structure Code where
  counts : List Nat
  symbols : Array Nat

/-- The greatest length of a code word. -/
def longest : Nat := 15

/-- The code in which each symbol has a word of the given length, none if the length is 0. -/
def Code.ofLengths (lengths : List Nat) : Code where
  counts := (List.range longest).map fun i => lengths.count (i + 1)
  symbols := ((List.range longest).flatMap fun i =>
    (lengths.zipIdx.filter fun s => s.1 = i + 1).map Prod.snd).toArray

/-- Whether every sequence of bits begins with a code word and no word begins another. -/
def Code.isComplete (c : Code) : Bool :=
  c.counts.zipIdx.foldl (fun total s => total + s.1 <<< (longest - 1 - s.2)) 0 == 1 <<< longest

/-- Whether a code has no word at all, or one of a single bit. -/
def Code.isMinimal (c : Code) : Bool :=
  c.symbols.size ≤ 1 && c.counts.head? == some c.symbols.size

/-- The code of the given lengths. A code that is not complete has to be minimal. -/
def codeOfLengths (lengths : List Nat) : BitReader Code :=
  let c := Code.ofLengths lengths
  if c.isComplete || c.isMinimal then return c else throw .corrupt

/-- Reads a code word bit by bit, up to a bit after which no word is left. `word` are the bits read so far, `first` is
the first word of their length, and `index` counts the shorter words. -/
def symbolFrom (symbols : Array Nat) (word first index : Nat) : List Nat → BitReader Nat
  | [] => throw .corrupt
  | count :: counts => do
    let word := word + (← bit).toNat
    if word < first + count then
      match symbols[index + (word - first)]? with
      | some s => return s
      | none => throw .corrupt
    else if index + count = symbols.size then throw .corrupt
    else symbolFrom symbols (2 * word) (2 * (first + count)) (index + count) counts

def Code.symbol (c : Code) : BitReader Nat := symbolFrom c.symbols 0 0 0 c.counts

/-! ## Blocks -/

/-- The codes of a block: one for bytes, lengths and the end of the block, one for distances. -/
structure BlockCodes where
  literals : Code
  distances : Code

def fixedCodes : BlockCodes where
  literals := .ofLengths
    (List.replicate 144 8 ++ List.replicate 112 9 ++ List.replicate 24 7 ++ List.replicate 8 8)
  distances := .ofLengths (List.replicate 32 5)

/-- The symbols of the code for code word lengths, in the order in which their own lengths are written. -/
def lengthOrder : List Nat := [16, 17, 18, 0, 8, 7, 9, 6, 10, 5, 11, 4, 12, 3, 13, 2, 14, 1, 15]

/-- Reads code word lengths until there are `total`, after those already read (the latest first). -/
def readLengths (c : Code) (total : Nat) : (fuel : Nat) → List Nat → BitReader (List Nat)
  | 0, _ => throw .incomplete
  | fuel + 1, read => do
    if read.length = total then return read.reverse
    if total < read.length then throw .corrupt
    match ← c.symbol with
    | 16 =>
      match read with
      | [] => throw .corrupt
      | last :: _ => readLengths c total fuel (List.replicate (3 + (← number 2)) last ++ read)
    | 17 => readLengths c total fuel (List.replicate (3 + (← number 3)) 0 ++ read)
    | 18 => readLengths c total fuel (List.replicate (11 + (← number 7)) 0 ++ read)
    | length => readLengths c total fuel (length :: read)

/-- Reads the description of the codes of a block. -/
def readCodes : BitReader BlockCodes := do
  let literals := 257 + (← number 5)
  let distances := 1 + (← number 5)
  let described := 4 + (← number 4)
  if 286 < literals ∨ 30 < distances then throw .corrupt
  let given ← (List.range described).mapM fun _ => number 3
  let lengthCode := Code.ofLengths ((List.range 19).map fun symbol =>
    ((lengthOrder.zip given).lookup symbol).getD 0)
  if !lengthCode.isComplete then throw .corrupt
  let lengths ← readLengths lengthCode (literals + distances) (literals + distances + 1) []
  return ⟨← codeOfLengths (lengths.take literals), ← codeOfLengths (lengths.drop literals)⟩

/-- The least length of each length symbol from 257 on, and how many more bits tell it exactly. -/
def lengthTable : List (Nat × Nat) :=
  [(3, 0), (4, 0), (5, 0), (6, 0), (7, 0), (8, 0), (9, 0), (10, 0), (11, 1), (13, 1), (15, 1), (17, 1), (19, 2),
   (23, 2), (27, 2), (31, 2), (35, 3), (43, 3), (51, 3), (59, 3), (67, 4), (83, 4), (99, 4), (115, 4), (131, 5),
   (163, 5), (195, 5), (227, 5), (258, 0)]

/-- The least distance of each distance symbol, and how many more bits tell it exactly. -/
def distanceTable : List (Nat × Nat) :=
  [(1, 0), (2, 0), (3, 0), (4, 0), (5, 1), (7, 1), (9, 2), (13, 2), (17, 3), (25, 3), (33, 4), (49, 4), (65, 5),
   (97, 5), (129, 6), (193, 6), (257, 7), (385, 7), (513, 8), (769, 8), (1025, 9), (1537, 9), (2049, 10),
   (3073, 10), (4097, 11), (6145, 11), (8193, 12), (12289, 12), (16385, 13), (24577, 13)]

/-- The number that a symbol of a table and the bits after it tell. -/
def tableValue (table : List (Nat × Nat)) (symbol : Nat) : BitReader Nat :=
  match table[symbol]? with
  | some (least, more) => return least + (← number more)
  | none => throw .corrupt

/-- Writes `length` bytes, each the one that stands `distance` before it. -/
def copy (distance : Nat) : (length : Nat) → Array UInt8 → Array UInt8
  | 0, out => out
  | length + 1, out =>
    let b := if distance ≤ out.size then out.getD (out.size - distance) 0 else 0
    copy distance length (out.push b)

/-- Reads the symbols of a block up to its end. -/
def readSymbols (codes : BlockCodes) : (fuel : Nat) → Array UInt8 → BitReader (Array UInt8)
  | 0, _ => throw .incomplete
  | fuel + 1, out => do
    let symbol ← codes.literals.symbol
    if symbol < 256 then readSymbols codes fuel (out.push (UInt8.ofNat symbol))
    else if symbol = 256 then return out
    else
      let length ← tableValue lengthTable (symbol - 257)
      let distance ← tableValue distanceTable (← codes.distances.symbol)
      readSymbols codes fuel (copy distance length out)

/-- Reads a number of bytes as they are. -/
def readStored : (length : Nat) → Array UInt8 → BitReader (Array UInt8)
  | 0, out => return out
  | length + 1, out => do readStored length (out.push (UInt8.ofNat (← number 8)))

/-- Reads the length of a stored block, which is written twice, the second time with every bit inverted. -/
def storedLength : BitReader Nat := do
  align
  let length ← number 16
  let inverted ← number 16
  if length + inverted ≠ 0xFFFF then throw .corrupt
  return length

/-- Reads blocks up to the last one. Every symbol takes a bit at least, so `fuel`, the number of bits, is enough for
all loops. -/
def readBlocks (size : Nat) : (fuel : Nat) → Array UInt8 → BitReader (Array UInt8)
  | 0, _ => throw .incomplete
  | fuel + 1, out => do
    let isLast ← bit
    let out ← match ← number 2 with
      | 0 => do readStored (← storedLength) out
      | 1 => readSymbols fixedCodes size out
      | 2 => do readSymbols (← readCodes) size out
      | _ => throw .corrupt
    if isLast then return out else readBlocks size fuel out

end Inflate

/-- The bytes that deflated data stands for. What follows the last block is ignored. -/
def inflate (bs : Bytes) : Except InflateFault Bytes :=
  let size := 8 * bs.length + 1
  (Inflate.readBlocks size size #[] (Inflate.bits bs)).map fun r => r.1.toList

end MethodScout.Archive
