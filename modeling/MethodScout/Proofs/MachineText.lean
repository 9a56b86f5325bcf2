import MethodScout.Proofs.MachineReader
import MethodScout.Proofs.ModifiedText

/-!
# Texts decoded with machine words

`Machine.unitsFrom` walks over the bytes of a text with an index of 64 bits, and puts code units together by shifts of words
of 16 bits. The index never overflows and no shift loses bits, so that the text is the one that `ModifiedUtf8.decode` gives.
-/

namespace MethodScout.Machine

open Text.ModifiedUtf8

namespace Slice

variable {s : Slice} {i k : UInt64}

def byte (s : Slice) (i : UInt64) : UInt8 := s.bytes.getD i.toNat 0

theorem lt_size_iff : i < s.size ↔ i.toNat < s.bytes.length := by
  rw [UInt64.lt_iff_toNat_lt, toNat_size]

/-- An index inside the data is far from the largest word. -/
theorem toNat_next (hi : i < s.size) (hk : k ≤ 3) : (i + k).toNat = i.toNat + k.toNat := by
  have hshort := s.short
  have hlt := lt_size_iff.mp hi
  have hle : k.toNat ≤ 3 := UInt64.le_iff_toNat_le.mp hk
  rw [UInt64.toNat_add, Nat.mod_eq_of_lt]
  omega

theorem next_lt (hi : i < s.size) (hpos : 0 < k) (hk : k ≤ 3) :
    s.size.toNat - (i + k).toNat < s.size.toNat - i.toNat := by
  have hlt := UInt64.lt_iff_toNat_lt.mp hi
  have hpos' : 0 < k.toNat := UInt64.lt_iff_toNat_lt.mp hpos
  rw [toNat_next hi hk]
  omega

theorem drop_eq_cons (hi : i < s.size) : s.bytes.drop i.toNat = s.byte i :: s.bytes.drop (i + 1).toNat := by
  have hlt := lt_size_iff.mp hi
  rw [toNat_next hi (by decide), List.drop_eq_getElem_cons hlt, Slice.byte, List.getD_eq_getElem?_getD,
    List.getElem?_eq_getElem hlt]
  rfl

theorem length_drop_lt (hi : i < s.size) (hk : k ≤ 3) (hend : ¬i + k < s.size) :
    (s.bytes.drop (i + 1).toNat).length < k.toNat := by
  have hlt := lt_size_iff.mp hi
  rw [lt_size_iff, toNat_next hi hk] at hend
  rw [List.length_drop, toNat_next hi (by decide)]
  change s.bytes.length - (i.toNat + 1) < k.toNat
  omega

end Slice

/-! ## Code units -/

/-- The code unit that two bytes stand for. -/
def unitOfTwo (a b : UInt8) : UInt16 := (a &&& 0x1F).toUInt16 <<< 6 ||| (b &&& 0x3F).toUInt16

/-- The code unit that three bytes stand for. -/
def unitOfThree (a b c : UInt8) : UInt16 :=
  (a &&& 0x0F).toUInt16 <<< 12 ||| (b &&& 0x3F).toUInt16 <<< 6 ||| (c &&& 0x3F).toUInt16

theorem toNat_unitOfTwo (a b : UInt8) : (unitOfTwo a b).toNat = 64 * (a.toNat % 32) + b.toNat % 64 :=
  toNat_two a b

theorem toNat_unitOfThree (a b c : UInt8) :
    (unitOfThree a b c).toNat = 4096 * (a.toNat % 16) + 64 * (b.toNat % 64) + c.toNat % 64 :=
  toNat_three a b c

/-- The code units from an index on, after those already read (the latest first). -/
def unitsFrom (s : Slice) (read : List UInt16) (i : UInt64) : List UInt16 :=
  if i < s.size then
    if s.byte i &&& 0x80 = 0 then unitsFrom s ((s.byte i).toUInt16 :: read) (i + 1)
    else if s.byte i &&& 0xE0 = 0xC0 ∧ i + 1 < s.size then
      unitsFrom s (unitOfTwo (s.byte i) (s.byte (i + 1)) :: read) (i + 2)
    else if s.byte i &&& 0xF0 = 0xE0 ∧ i + 2 < s.size then
      unitsFrom s (unitOfThree (s.byte i) (s.byte (i + 1)) (s.byte (i + 2)) :: read) (i + 3)
    else unitsFrom s (0xFFFD :: read) (i + 1)
  else read.reverse
termination_by s.size.toNat - i.toNat
decreasing_by
  all_goals exact Slice.next_lt ‹_› (by decide) (by decide)

def decodeText (s : Slice) : String :=
  match Text.Utf8.decode? s.bytes with
  | some text => text
  | none => String.ofList (Text.Utf16.decodeLossy (unitsFrom s [] 0))

/-! ## Texts in unbounded numbers -/

/-- A byte that begins no unit, or one whose unit is cut off. -/
theorem unitsAfter_of_cut {read : List UInt16} {a : UInt8} {bs : Bytes} (hone : ¬a &&& 0x80 = 0)
    (htwo : a &&& 0xE0 = 0xC0 → bs.length < 1) (hthree : a &&& 0xF0 = 0xE0 → bs.length < 2) :
    unitsAfter read (a :: bs) = unitsAfter (0xFFFD :: read) bs := by
  rw [unitsAfter.eq_def]
  simp only [hone, if_false]
  by_cases hcut : a &&& 0xE0 = 0xC0
  · have hbs : bs = [] := List.length_eq_zero_iff.mp (Nat.lt_one_iff.mp (htwo hcut))
    simp only [hcut, hbs, if_true]
  · by_cases hcut' : a &&& 0xF0 = 0xE0
    · simp only [hcut, hcut', if_false, if_true]
      rcases bs with _ | ⟨b, _ | ⟨c, rest⟩⟩
      · rfl
      · rfl
      · exact absurd (hthree hcut') (by simp)
    · simp only [hcut, hcut', if_false]

theorem unitsFrom_eq (s : Slice) (read : List UInt16) (i : UInt64) :
    unitsFrom s read i = unitsAfter read (s.bytes.drop i.toNat) := by
  fun_induction unitsFrom s read i with
  | case1 read i hi hone ih =>
      rw [ih, Slice.drop_eq_cons hi, unitsAfter_one ((begins_one_iff _).mp hone) (UInt8.toNat_toUInt16 _)]
  | case2 read i hi hone htwo ih =>
      have hnext : i + 1 + 1 = i + 2 := UInt64.add_assoc i 1 1
      rw [ih, Slice.drop_eq_cons hi, Slice.drop_eq_cons htwo.2, hnext,
        unitsAfter_two ((begins_two_iff _).mp htwo.1) (toNat_unitOfTwo _ _)]
  | case3 read i hi hone htwo hthree ih =>
      have hnext : i + 1 + 1 = i + 2 := UInt64.add_assoc i 1 1
      have hlast : i + 2 + 1 = i + 3 := UInt64.add_assoc i 2 1
      have hi' : i + 1 < s.size := by
        have hlt := Slice.lt_size_iff.mp hthree.2
        rw [Slice.toNat_next hi (by decide)] at hlt
        rw [Slice.lt_size_iff, Slice.toNat_next hi (by decide)]
        exact Nat.lt_of_succ_lt hlt
      rw [ih, Slice.drop_eq_cons hi, Slice.drop_eq_cons hi', hnext, Slice.drop_eq_cons hthree.2, hlast,
        unitsAfter_three ((begins_three_iff _).mp hthree.1) (toNat_unitOfThree _ _ _)]
  | case4 read i hi hone htwo hthree ih =>
      rw [ih, Slice.drop_eq_cons hi]
      exact (unitsAfter_of_cut hone (fun h => Slice.length_drop_lt hi (by decide) fun h' => htwo ⟨h, h'⟩)
        fun h => Slice.length_drop_lt hi (by decide) fun h' => hthree ⟨h, h'⟩).symm
  | case5 read i hi =>
      rw [List.drop_eq_nil_of_le (Nat.not_lt.mp (mt Slice.lt_size_iff.mpr hi)), unitsAfter]

theorem decodeText_eq (s : Slice) : decodeText s = Text.ModifiedUtf8.decode s.bytes := by
  rw [decodeText, Text.ModifiedUtf8.decode]
  cases Text.Utf8.decode? s.bytes with
  | some text => rfl
  | none => exact congrArg (fun units => String.ofList (Text.Utf16.decodeLossy units)) (unitsFrom_eq s [] 0)

end MethodScout.Machine
