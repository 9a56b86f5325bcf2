import MethodScout.Text.Utf16

/-!
# Characters in UTF-16 code units

`Reads` says which characters a list of code units stands for: a high surrogate with a low one right after it is one
character, every other surrogate is U+FFFD, and all other units are themselves. Decoding gives exactly these characters,
and the units of a text are read back as that text.
-/

namespace MethodScout.Text.Utf16

/-- The units stand for the characters. -/
inductive Reads : List UInt16 → List Char → Prop
  | nil : Reads [] []
  | pair {high low : UInt16} {c : Char} {us : List UInt16} {cs : List Char} (hhigh : isHighSurrogate high = true)
      (hlow : isLowSurrogate low = true)
      (hc : c.toNat = 0x10000 + 0x400 * (high.toNat - 0xD800) + (low.toNat - 0xDC00)) (h : Reads us cs) :
      Reads (high :: low :: us) (c :: cs)
  | unpairedHigh {high : UInt16} {us : List UInt16} {cs : List Char} (hhigh : isHighSurrogate high = true)
      (hnext : ∀ next ∈ us.head?, isLowSurrogate next = false) (h : Reads us cs) :
      Reads (high :: us) (replacement :: cs)
  | unpairedLow {low : UInt16} {us : List UInt16} {cs : List Char} (hlow : isLowSurrogate low = true)
      (h : Reads us cs) : Reads (low :: us) (replacement :: cs)
  | plain {unit : UInt16} {c : Char} {us : List UInt16} {cs : List Char} (hhigh : isHighSurrogate unit = false)
      (hlow : isLowSurrogate unit = false) (hc : c.toNat = unit.toNat) (h : Reads us cs) :
      Reads (unit :: us) (c :: cs)

/-! ## Surrogates -/

theorem isHighSurrogate_iff {unit : UInt16} :
    isHighSurrogate unit = true ↔ 0xD800 ≤ unit.toNat ∧ unit.toNat ≤ 0xDBFF := by
  simp [isHighSurrogate, UInt16.le_iff_toNat_le]

theorem isLowSurrogate_iff {unit : UInt16} :
    isLowSurrogate unit = true ↔ 0xDC00 ≤ unit.toNat ∧ unit.toNat ≤ 0xDFFF := by
  simp [isLowSurrogate, UInt16.le_iff_toNat_le]

theorem isHighSurrogate_of_isLowSurrogate {unit : UInt16} (h : isLowSurrogate unit = true) :
    isHighSurrogate unit = false := by
  rw [Bool.eq_false_iff, ne_eq, isHighSurrogate_iff]
  rw [isLowSurrogate_iff] at h
  omega

theorem ofNat_eq_of_toNat {c : Char} {n : Nat} (h : c.toNat = n) : Char.ofNat n = c := by
  rw [← h, Char.ofNat_toNat]

theorem toNat_ofNat_of_valid {n : Nat} (h : n.isValidChar) : (Char.ofNat n).toNat = n := by
  rw [Char.ofNat, dif_pos h]
  rfl

theorem toNat_pair {high low : UInt16} (hhigh : isHighSurrogate high = true) (hlow : isLowSurrogate low = true) :
    (pair high low).toNat = 0x10000 + 0x400 * (high.toNat - 0xD800) + (low.toNat - 0xDC00) := by
  rw [isHighSurrogate_iff] at hhigh
  rw [isLowSurrogate_iff] at hlow
  apply toNat_ofNat_of_valid
  simp only [Nat.isValidChar]
  omega

theorem toNat_ofNat_of_plain {unit : UInt16} (hhigh : isHighSurrogate unit = false)
    (hlow : isLowSurrogate unit = false) : (Char.ofNat unit.toNat).toNat = unit.toNat := by
  have hlt := unit.toNat_lt
  rw [Bool.eq_false_iff, ne_eq, isHighSurrogate_iff] at hhigh
  rw [Bool.eq_false_iff, ne_eq, isLowSurrogate_iff] at hlow
  apply toNat_ofNat_of_valid
  simp only [Nat.isValidChar]
  omega

/-! ## Decoding -/

/-- A high surrogate whose partner does not come is replaced, and the next unit starts afresh. -/
theorem finish_of_unpaired {decoded : List Char} {high : UInt16} {us : List UInt16}
    (hnext : ∀ next ∈ us.head?, isLowSurrogate next = false) :
    (us.foldl step ⟨decoded, some high⟩).finish = (us.foldl step ⟨replacement :: decoded, none⟩).finish := by
  cases us with
  | nil => rfl
  | cons next us =>
      have hlow : isLowSurrogate next = false := hnext next rfl
      simp [step, hlow]

theorem Reads.finish {us : List UInt16} {cs : List Char} (h : Reads us cs) (decoded : List Char) :
    (us.foldl step ⟨decoded, none⟩).finish = decoded.reverse ++ cs := by
  induction h generalizing decoded with
  | nil => simp [Progress.finish]
  | pair hhigh hlow hc _ ih =>
      have hpair := ofNat_eq_of_toNat hc
      simp [step, start, hhigh, hlow, Utf16.pair, hpair, ih]
  | unpairedHigh hhigh hnext _ ih =>
      rw [List.foldl_cons, step, start, if_pos hhigh, finish_of_unpaired hnext, ih]
      simp
  | unpairedLow hlow _ ih =>
      simp [step, start, hlow, isHighSurrogate_of_isLowSurrogate hlow, ih]
  | plain hhigh hlow hc _ ih =>
      have hplain := ofNat_eq_of_toNat hc
      simp [step, start, hhigh, hlow, hplain, ih]

theorem exists_reads : (us : List UInt16) → ∃ cs, Reads us cs
  | [] => ⟨[], .nil⟩
  | unit :: us => by
      obtain ⟨cs, hcs⟩ := exists_reads us
      cases hlow : isLowSurrogate unit with
      | true => exact ⟨_, .unpairedLow hlow hcs⟩
      | false =>
          cases hhigh : isHighSurrogate unit with
          | false => exact ⟨_, .plain hhigh hlow (toNat_ofNat_of_plain hhigh hlow) hcs⟩
          | true =>
              cases us with
              | nil => exact ⟨_, .unpairedHigh hhigh (by simp) hcs⟩
              | cons next us =>
                  cases hnext : isLowSurrogate next with
                  | false => exact ⟨_, .unpairedHigh hhigh (by simpa using hnext) hcs⟩
                  | true =>
                      obtain ⟨cs', hcs'⟩ := exists_reads us
                      exact ⟨_, .pair hhigh hnext (toNat_pair hhigh hnext) hcs'⟩

theorem reads_iff {us : List UInt16} {cs : List Char} : Reads us cs ↔ decodeLossy us = cs := by
  constructor
  · intro h
    exact h.finish []
  · intro h
    obtain ⟨cs', hcs'⟩ := exists_reads us
    have heq : decodeLossy us = cs' := hcs'.finish []
    rwa [← h, heq]

/-! ## Encoding -/

/-- The code units of a character. -/
def encodeChar (c : Char) : List UInt16 :=
  if c.toNat < 0x10000 then [UInt16.ofNat c.toNat]
  else [UInt16.ofNat (0xD800 + (c.toNat - 0x10000) / 0x400), UInt16.ofNat (0xDC00 + (c.toNat - 0x10000) % 0x400)]

/-- The code units of a text. -/
def encode (text : String) : List UInt16 :=
  text.toList.flatMap encodeChar

theorem Reads.encodeChar_append {us : List UInt16} {cs : List Char} (h : Reads us cs) (c : Char) :
    Reads (encodeChar c ++ us) (c :: cs) := by
  have hvalid : c.toNat.isValidChar := c.valid
  simp only [Nat.isValidChar] at hvalid
  unfold encodeChar
  split
  · rename_i hsmall
    have htoNat : (UInt16.ofNat c.toNat).toNat = c.toNat := by
      rw [UInt16.toNat_ofNat']
      omega
    refine .plain ?_ ?_ htoNat.symm h
    · rw [Bool.eq_false_iff, ne_eq, isHighSurrogate_iff, htoNat]
      omega
    · rw [Bool.eq_false_iff, ne_eq, isLowSurrogate_iff, htoNat]
      omega
  · refine .pair ?_ ?_ ?_ h
    · rw [isHighSurrogate_iff, UInt16.toNat_ofNat']
      omega
    · rw [isLowSurrogate_iff, UInt16.toNat_ofNat']
      omega
    · rw [UInt16.toNat_ofNat', UInt16.toNat_ofNat']
      omega

theorem reads_flatMap_encodeChar (cs : List Char) : Reads (cs.flatMap encodeChar) cs := by
  induction cs with
  | nil => exact .nil
  | cons c cs ih =>
      rw [List.flatMap_cons]
      exact ih.encodeChar_append c

theorem reads_encode (text : String) : Reads (encode text) text.toList :=
  reads_flatMap_encodeChar text.toList

end MethodScout.Text.Utf16
