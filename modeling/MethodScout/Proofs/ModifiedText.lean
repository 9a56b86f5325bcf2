import MethodScout.Proofs.CodeUnits
import MethodScout.Proofs.Words
import MethodScout.Text.ModifiedUtf8

/-!
# Texts of class files

Modified UTF-8 writes code units one by one, and reading them unit by unit gives them back. The bytes are plain UTF-8
only if no unit is zero or a surrogate, and then both ways of reading agree. So decoding gives the characters that the
code units stand for.
-/

namespace MethodScout.Text

namespace Utf8

/-! ## Steps of plain UTF-8 -/

variable {decoded : List (Option Char)} {a b c : UInt8}

theorem start_one (hb : b.toNat < 0x80) : start decoded b = ⟨some (Char.ofNat b.toNat) :: decoded, none⟩ := by
  simp only [start, if_pos hb]

theorem start_stray (hb : 0x80 ≤ b.toNat ∧ b.toNat < 0xC2) : start decoded b = ⟨none :: decoded, none⟩ := by
  simp (disch := omega) only [start, if_neg, if_pos]

theorem start_two (ha : 0xC2 ≤ a.toNat ∧ a.toNat < 0xE0) :
    start decoded a = ⟨decoded, some ⟨a.toNat - 0xC0, 1, 0x80, 0xBF⟩⟩ := by
  simp (disch := omega) only [start, if_neg, if_pos]

theorem start_three (ha : 0xE0 ≤ a.toNat ∧ a.toNat < 0xF0) :
    start decoded a = ⟨decoded, some ⟨a.toNat - 0xE0, 2, if a.toNat = 0xE0 then 0xA0 else 0x80,
      if a.toNat = 0xED then 0x9F else 0xBF⟩⟩ := by
  by_cases hlow : a.toNat = 0xE0
  · simp [start, hlow]
  by_cases hhigh : a.toNat = 0xED
  · simp [start, hhigh]
  simp (disch := omega) only [start, if_neg, if_pos]

theorem foldl_step_two (ha : 0xC2 ≤ a.toNat ∧ a.toNat < 0xE0) (hb : 0x80 ≤ b.toNat ∧ b.toNat ≤ 0xBF) :
    [a, b].foldl step ⟨decoded, none⟩ =
      ⟨some (Char.ofNat (64 * (a.toNat - 0xC0) + (b.toNat - 0x80))) :: decoded, none⟩ := by
  simp [step, start_two ha, hb]

theorem foldl_step_three (ha : 0xE0 ≤ a.toNat ∧ a.toNat < 0xF0) (hb : 0x80 ≤ b.toNat ∧ b.toNat ≤ 0xBF)
    (hlow : a.toNat = 0xE0 → 0xA0 ≤ b.toNat) (hhigh : a.toNat = 0xED → b.toNat ≤ 0x9F)
    (hc : 0x80 ≤ c.toNat ∧ c.toNat ≤ 0xBF) :
    [a, b, c].foldl step ⟨decoded, none⟩ =
      ⟨some (Char.ofNat (64 * (64 * (a.toNat - 0xE0) + (b.toNat - 0x80)) + (c.toNat - 0x80))) :: decoded, none⟩ := by
  have hnext : (if a.toNat = 0xE0 then 0xA0 else 0x80) ≤ b.toNat ∧
      b.toNat ≤ if a.toNat = 0xED then 0x9F else 0xBF := by
    split <;> split <;> omega
  simp [step, start_three ha, hnext, hc]

/-- A surrogate in three bytes is malformed from its second byte on. -/
theorem foldl_step_surrogate (ha : a.toNat = 0xED) (hb : 0xA0 ≤ b.toNat ∧ b.toNat ≤ 0xBF)
    (hc : 0x80 ≤ c.toNat ∧ c.toNat ≤ 0xBF) :
    [a, b, c].foldl step ⟨decoded, none⟩ = ⟨[none, none, none] ++ decoded, none⟩ := by
  have hnext : ¬b.toNat ≤ 0x9F := by omega
  simp [step, start_three (a := a) (by omega), ha, hnext, start_stray (b := b) (by omega),
    start_stray (b := c) (by omega)]

theorem mapM_id_eq_some_iff {characters : List (Option Char)} {cs : List Char} :
    characters.mapM id = some cs ↔ characters = cs.map some := by
  induction characters generalizing cs with
  | nil => cases cs <;> simp
  | cons c characters ih =>
      cases c with
      | none => cases cs <;> simp
      | some c => cases cs <;> simp [Option.bind_eq_some_iff, ih, and_comm]

theorem decode?_eq_some_iff {bs : Bytes} {text : String} :
    decode? bs = some text ↔ characters bs = text.toList.map some := by
  rw [decode?, Option.map_eq_some_iff]
  simp only [mapM_id_eq_some_iff]
  constructor
  · rintro ⟨cs, hcs, rfl⟩
    rw [hcs, String.toList_ofList]
  · intro h
    exact ⟨text.toList, h, String.ofList_toList⟩

end Utf8

namespace ModifiedUtf8

/-! ## Unit by unit -/

theorem begins_one_iff : ∀ b : UInt8, b &&& 0x80 = 0 ↔ b.toNat < 0x80 := by
  apply Bytes.forall_byte
  decide +kernel

theorem begins_two_iff : ∀ b : UInt8, b &&& 0xE0 = 0xC0 ↔ 0xC0 ≤ b.toNat ∧ b.toNat < 0xE0 := by
  apply Bytes.forall_byte
  decide +kernel

theorem begins_three_iff : ∀ b : UInt8, b &&& 0xF0 = 0xE0 ↔ 0xE0 ≤ b.toNat ∧ b.toNat < 0xF0 := by
  apply Bytes.forall_byte
  decide +kernel

theorem toNat_sixBits (b : UInt8) : (sixBits b).toNat = b.toNat % 64 := by
  rw [sixBits, UInt8.toNat_toUInt16, UInt8.toNat_and]
  exact Nat.and_two_pow_sub_one_eq_mod b.toNat 6

theorem toNat_shiftLeft_or_sixBits {high : UInt16} (h : high.toNat < 1024) (b : UInt8) :
    (high <<< 6 ||| sixBits b).toNat = 64 * high.toNat + b.toNat % 64 := by
  have hshift : (high <<< 6).toNat = high.toNat <<< 6 := by
    have hlt : high.toNat * 64 < 65536 := by omega
    rw [UInt16.toNat_shiftLeft]
    simpa [Nat.shiftLeft_eq] using hlt
  rw [UInt16.toNat_or, hshift, toNat_sixBits, ← Nat.shiftLeft_add_eq_or_of_lt (by omega), Nat.shiftLeft_eq]
  omega

theorem toNat_two (a b : UInt8) :
    ((a &&& 0x1F).toUInt16 <<< 6 ||| sixBits b).toNat = 64 * (a.toNat % 32) + b.toNat % 64 := by
  have hmask : (a &&& 0x1F).toUInt16.toNat = a.toNat % 32 := by
    rw [UInt8.toNat_toUInt16, UInt8.toNat_and]
    exact Nat.and_two_pow_sub_one_eq_mod a.toNat 5
  rw [toNat_shiftLeft_or_sixBits (by omega), hmask]

theorem toNat_three (a b c : UInt8) :
    ((a &&& 0x0F).toUInt16 <<< 12 ||| sixBits b <<< 6 ||| sixBits c).toNat =
      4096 * (a.toNat % 16) + 64 * (b.toNat % 64) + c.toNat % 64 := by
  have hmask : (a &&& 0x0F).toUInt16.toNat = a.toNat % 16 := by
    rw [UInt8.toNat_toUInt16, UInt8.toNat_and]
    exact Nat.and_two_pow_sub_one_eq_mod a.toNat 4
  -- the first two bytes are shifted together
  have htwice : (a &&& 0x0F).toUInt16 <<< 12 ||| sixBits b <<< 6 =
      ((a &&& 0x0F).toUInt16 <<< 6 ||| sixBits b) <<< 6 := by
    rw [UInt16.shiftLeft_or, ← UInt16.shiftLeft_add (by decide) (by decide) (by decide)]
    rfl
  have hhigh : ((a &&& 0x0F).toUInt16 <<< 6 ||| sixBits b).toNat = 64 * (a.toNat % 16) + b.toNat % 64 := by
    rw [toNat_shiftLeft_or_sixBits (by omega), hmask]
  rw [htwice, toNat_shiftLeft_or_sixBits (by omega), hhigh]
  omega

section

variable {read : List UInt16} {bs : Bytes} {a b c : UInt8} {unit : UInt16}

theorem unitsAfter_one (ha : a.toNat < 0x80) (hunit : unit.toNat = a.toNat) :
    unitsAfter read (a :: bs) = unitsAfter (unit :: read) bs := by
  have heq : a.toUInt16 = unit := UInt16.toNat_inj.mp (by rw [hunit, UInt8.toNat_toUInt16])
  rw [unitsAfter.eq_def]
  simp only [(begins_one_iff a).mpr ha, if_true, heq]

theorem unitsAfter_two (ha : 0xC0 ≤ a.toNat ∧ a.toNat < 0xE0)
    (hunit : unit.toNat = 64 * (a.toNat % 32) + b.toNat % 64) :
    unitsAfter read (a :: b :: bs) = unitsAfter (unit :: read) bs := by
  have hone : ¬a &&& 0x80 = 0 := by
    rw [begins_one_iff]
    omega
  have heq : (a &&& 0x1F).toUInt16 <<< 6 ||| sixBits b = unit := UInt16.toNat_inj.mp (by rw [hunit, toNat_two])
  rw [unitsAfter, if_neg hone, if_pos ((begins_two_iff a).mpr ha), heq]

theorem unitsAfter_three (ha : 0xE0 ≤ a.toNat ∧ a.toNat < 0xF0)
    (hunit : unit.toNat = 4096 * (a.toNat % 16) + 64 * (b.toNat % 64) + c.toNat % 64) :
    unitsAfter read (a :: b :: c :: bs) = unitsAfter (unit :: read) bs := by
  have hone : ¬a &&& 0x80 = 0 := by
    rw [begins_one_iff]
    omega
  have htwo : ¬a &&& 0xE0 = 0xC0 := by
    rw [begins_two_iff]
    omega
  have heq : (a &&& 0x0F).toUInt16 <<< 12 ||| sixBits b <<< 6 ||| sixBits c = unit :=
    UInt16.toNat_inj.mp (by rw [hunit, toNat_three])
  rw [unitsAfter, if_neg hone, if_neg htwo, if_pos ((begins_three_iff a).mpr ha)]
  simp only [heq]

theorem unitsAfter_encodeUnit_append : unitsAfter read (encodeUnit unit ++ bs) = unitsAfter (unit :: read) bs := by
  have hlt := unit.toNat_lt
  simp only [encodeUnit]
  split
  · apply unitsAfter_one
    · rw [UInt8.toNat_ofNat']
      omega
    · rw [UInt8.toNat_ofNat']
      omega
  · split
    · apply unitsAfter_two
      · rw [UInt8.toNat_ofNat']
        omega
      · rw [UInt8.toNat_ofNat', UInt8.toNat_ofNat']
        omega
    · apply unitsAfter_three
      · rw [UInt8.toNat_ofNat']
        omega
      · rw [UInt8.toNat_ofNat', UInt8.toNat_ofNat', UInt8.toNat_ofNat']
        omega

end

theorem units_encode (us : List UInt16) : units (encode us) = us := by
  have hafter (read : List UInt16) : unitsAfter read (encode us) = read.reverse ++ us := by
    induction us generalizing read with
    | nil => simp [encode, unitsAfter]
    | cons unit us ih =>
        have hcons : encode (unit :: us) = encodeUnit unit ++ encode us := List.flatMap_cons
        rw [hcons, unitsAfter_encodeUnit_append, ih]
        simp
  exact hafter []

/-! ## As plain UTF-8 -/

/-- Whether the unit has the same bytes in plain UTF-8. -/
def IsPlain (unit : UInt16) : Prop :=
  unit.toNat ≠ 0 ∧ Utf16.isHighSurrogate unit = false ∧ Utf16.isLowSurrogate unit = false

instance (unit : UInt16) : Decidable (IsPlain unit) := inferInstanceAs (Decidable (_ ∧ _))

theorem isPlain_iff {unit : UInt16} :
    IsPlain unit ↔ unit.toNat ≠ 0 ∧ (unit.toNat < 0xD800 ∨ 0xDFFF < unit.toNat) := by
  rw [IsPlain, Bool.eq_false_iff, ne_eq (Utf16.isHighSurrogate unit), Utf16.isHighSurrogate_iff, Bool.eq_false_iff,
    ne_eq (Utf16.isLowSurrogate unit), Utf16.isLowSurrogate_iff]
  omega

/-- What plain UTF-8 makes of the bytes of a unit: its character, or a malformed stretch for each of them. -/
def plainCharacters (unit : UInt16) : List (Option Char) :=
  if IsPlain unit then [some (Char.ofNat unit.toNat)] else List.replicate (encodeUnit unit).length none

theorem foldl_step_of_plain {unit : UInt16} (h : IsPlain unit) (decoded : List (Option Char)) :
    (encodeUnit unit).foldl Utf8.step ⟨decoded, none⟩ = ⟨some (Char.ofNat unit.toNat) :: decoded, none⟩ := by
  have hlt := unit.toNat_lt
  rw [isPlain_iff] at h
  simp only [encodeUnit]
  split
  · have hbyte := Bytes.toNat_ofNat (show unit.toNat < 256 by omega)
    rw [List.foldl_cons, List.foldl_nil, Utf8.step, Utf8.start_one (by omega), hbyte]
  · split
    · have hlead := Bytes.toNat_ofNat (show 0xC0 + unit.toNat / 64 < 256 by omega)
      have hnext := Bytes.toNat_ofNat (show 0x80 + unit.toNat % 64 < 256 by omega)
      have hvalue : 64 * (0xC0 + unit.toNat / 64 - 0xC0) + (0x80 + unit.toNat % 64 - 0x80) = unit.toNat := by omega
      rw [Utf8.foldl_step_two (by omega) (by omega), hlead, hnext, hvalue]
    · have hlead := Bytes.toNat_ofNat (show 0xE0 + unit.toNat / 4096 < 256 by omega)
      have hnext := Bytes.toNat_ofNat (show 0x80 + unit.toNat / 64 % 64 < 256 by omega)
      have hlast := Bytes.toNat_ofNat (show 0x80 + unit.toNat % 64 < 256 by omega)
      have hvalue : 64 * (64 * (0xE0 + unit.toNat / 4096 - 0xE0) + (0x80 + unit.toNat / 64 % 64 - 0x80)) +
          (0x80 + unit.toNat % 64 - 0x80) = unit.toNat := by omega
      rw [Utf8.foldl_step_three (by omega) (by omega) (by omega) (by omega) (by omega), hlead, hnext, hlast, hvalue]

theorem foldl_step_of_not_plain {unit : UInt16} (h : ¬IsPlain unit) (decoded : List (Option Char)) :
    (encodeUnit unit).foldl Utf8.step ⟨decoded, none⟩ =
      ⟨List.replicate (encodeUnit unit).length none ++ decoded, none⟩ := by
  rw [isPlain_iff] at h
  simp only [encodeUnit]
  split
  · omega
  · split
    · have hzero : unit.toNat = 0 := by omega
      rw [hzero]
      rfl
    · have hlead : (UInt8.ofNat (0xE0 + unit.toNat / 4096)).toNat = 0xED := by
        rw [UInt8.toNat_ofNat']
        omega
      have hnext := Bytes.toNat_ofNat (show 0x80 + unit.toNat / 64 % 64 < 256 by omega)
      have hlast := Bytes.toNat_ofNat (show 0x80 + unit.toNat % 64 < 256 by omega)
      rw [Utf8.foldl_step_surrogate hlead (by omega) (by omega)]
      rfl

theorem characters_encode (us : List UInt16) : Utf8.characters (encode us) = us.flatMap plainCharacters := by
  have hreverse (unit : UInt16) : (plainCharacters unit).reverse = plainCharacters unit := by
    unfold plainCharacters
    split
    · rfl
    · exact List.reverse_replicate
  have hrun (decoded : List (Option Char)) : (encode us).foldl Utf8.step ⟨decoded, none⟩ =
      ⟨(us.flatMap plainCharacters).reverse ++ decoded, none⟩ := by
    induction us generalizing decoded with
    | nil => rfl
    | cons unit us ih =>
        have hcons : encode (unit :: us) = encodeUnit unit ++ encode us := List.flatMap_cons
        have hunit : (encodeUnit unit).foldl Utf8.step ⟨decoded, none⟩ = ⟨plainCharacters unit ++ decoded, none⟩ := by
          unfold plainCharacters
          split
          · exact foldl_step_of_plain ‹_› decoded
          · exact foldl_step_of_not_plain ‹_› decoded
        rw [hcons, List.foldl_append, hunit, ih, List.flatMap_cons, List.reverse_append, hreverse, List.append_assoc]
  rw [Utf8.characters, hrun]
  simp [Utf8.Progress.finish]

theorem decode?_encode_of_plain {us : List UInt16} (h : ∀ unit ∈ us, IsPlain unit) :
    Utf8.decode? (encode us) = some (String.ofList (us.map fun unit => Char.ofNat unit.toNat)) := by
  rw [Utf8.decode?_eq_some_iff, characters_encode, String.toList_ofList]
  induction us with
  | nil => rfl
  | cons unit us ih =>
      have hunit : plainCharacters unit = [some (Char.ofNat unit.toNat)] := if_pos (h unit List.mem_cons_self)
      rw [List.flatMap_cons, hunit, ih fun next hnext => h next (List.mem_cons_of_mem unit hnext)]
      rfl

theorem decode?_encode_of_not_plain {us : List UInt16} {unit : UInt16} (hunit : unit ∈ us) (h : ¬IsPlain unit) :
    Utf8.decode? (encode us) = none := by
  have hpos : 0 < (encodeUnit unit).length := by
    simp only [encodeUnit]
    split_ifs <;> simp
  have hnone : none ∈ us.flatMap plainCharacters := by
    refine List.mem_flatMap.mpr ⟨unit, hunit, ?_⟩
    rw [plainCharacters, if_neg h, List.mem_replicate]
    exact ⟨by omega, rfl⟩
  rw [Option.eq_none_iff_forall_ne_some]
  intro text htext
  rw [Utf8.decode?_eq_some_iff, characters_encode] at htext
  rw [htext] at hnone
  simp at hnone

/-! ## Decoding what was encoded -/

theorem reads_of_plain {us : List UInt16} (h : ∀ unit ∈ us, IsPlain unit) :
    Utf16.Reads us (us.map fun unit => Char.ofNat unit.toNat) := by
  induction us with
  | nil => exact .nil
  | cons unit us ih =>
      obtain ⟨-, hhigh, hlow⟩ := h unit List.mem_cons_self
      refine .plain hhigh hlow (Utf16.toNat_ofNat_of_plain hhigh hlow) (ih ?_)
      intro next hnext
      exact h next (List.mem_cons_of_mem unit hnext)

theorem decode_encode (us : List UInt16) : decode (encode us) = String.ofList (Utf16.decodeLossy us) := by
  by_cases h : ∀ unit ∈ us, IsPlain unit
  · rw [decode, decode?_encode_of_plain h, Utf16.reads_iff.mp (reads_of_plain h)]
  · simp only [not_forall] at h
    obtain ⟨unit, hunit, h⟩ := h
    rw [decode, decode?_encode_of_not_plain hunit h, decodeUnits, units_encode]

/-- What is decoded from the encoding of code units is the text that they stand for; so every text comes back. -/
theorem decode_encode_eq_iff_reads :
    (∀ (us : List UInt16) (text : String), decode (encode us) = text ↔ Utf16.Reads us text.toList) ∧
      ∀ text : String, decode (encode (Utf16.encode text)) = text := by
  have hreads (us : List UInt16) (text : String) : decode (encode us) = text ↔ Utf16.Reads us text.toList := by
    rw [decode_encode, Utf16.reads_iff, ← String.toList_inj, String.toList_ofList]
  exact ⟨hreads, fun text => (hreads _ text).mpr (Utf16.reads_encode text)⟩

end ModifiedUtf8

end MethodScout.Text
