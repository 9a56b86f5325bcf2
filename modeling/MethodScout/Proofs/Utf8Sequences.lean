import MethodScout.Proofs.ModifiedText
import MethodScout.Proofs.Utf8Order

/-!
# Plain UTF-8 read unit by unit

`Utf8.Sequence` is the table of well-formed byte sequences, one to four bytes for a character. Strict decoding accepts
exactly what is put together from them. Reading such bytes unit by unit gives the same characters from sequences of up to
three bytes, and U+FFFD four times from a sequence of four.
-/

namespace MethodScout.Text

namespace Utf8

variable {decoded : List (Option Char)} {a b c d : UInt8}

/-- A byte that continues a character. -/
def IsTail (b : UInt8) : Prop := 0x80 ≤ b.toNat ∧ b.toNat ≤ 0xBF

/-- The well-formed sequences and their characters. The bounds on second bytes keep out what has a shorter sequence, the
surrogates, and what lies beyond U+10FFFF. -/
inductive Sequence : Bytes → Char → Prop
  | one {a : UInt8} {ch : Char} (ha : a.toNat < 0x80) (hch : ch.toNat = a.toNat) : Sequence [a] ch
  | two {a b : UInt8} {ch : Char} (ha : 0xC2 ≤ a.toNat ∧ a.toNat < 0xE0) (hb : IsTail b)
      (hch : ch.toNat = 64 * (a.toNat - 0xC0) + (b.toNat - 0x80)) : Sequence [a, b] ch
  | three {a b c : UInt8} {ch : Char} (ha : 0xE0 ≤ a.toNat ∧ a.toNat < 0xF0) (hb : IsTail b)
      (hlow : a.toNat = 0xE0 → 0xA0 ≤ b.toNat) (hhigh : a.toNat = 0xED → b.toNat ≤ 0x9F) (hc : IsTail c)
      (hch : ch.toNat = 64 * (64 * (a.toNat - 0xE0) + (b.toNat - 0x80)) + (c.toNat - 0x80)) : Sequence [a, b, c] ch
  | four {a b c d : UInt8} {ch : Char} (ha : 0xF0 ≤ a.toNat ∧ a.toNat < 0xF5) (hb : IsTail b)
      (hlow : a.toNat = 0xF0 → 0x90 ≤ b.toNat) (hhigh : a.toNat = 0xF4 → b.toNat ≤ 0x8F) (hc : IsTail c) (hd : IsTail d)
      (hch : ch.toNat = 64 * (64 * (64 * (a.toNat - 0xF0) + (b.toNat - 0x80)) + (c.toNat - 0x80)) + (d.toNat - 0x80)) :
      Sequence [a, b, c, d] ch

/-! ## The sequence of a character -/

theorem byte_eq_of_toNat {n : Nat} (h : a.toNat = n) : UInt8.ofNat n = a := by
  rw [← h, UInt8.ofNat_toNat]

theorem Sequence.eq_encode {bs : Bytes} {ch : Char} (h : Sequence bs ch) : bs = String.utf8EncodeChar ch := by
  unfold String.utf8EncodeChar
  cases h with
  | one ha hch =>
      have hval : ch.val.toNat = _ := hch
      rw [hval, if_pos (by omega), byte_eq_of_toNat rfl]
  | @two a b _ ha hb hch =>
      have hval : ch.val.toNat = _ := hch
      unfold IsTail at hb
      rw [hval, if_neg (by omega), if_pos (by omega), byte_eq_of_toNat (a := a) (by omega),
        byte_eq_of_toNat (a := b) (by omega)]
  | @three a b c _ ha hb hlow hhigh hc hch =>
      have hval : ch.val.toNat = _ := hch
      unfold IsTail at hb hc
      rw [hval, if_neg (by omega), if_neg (by omega), if_pos (by omega), byte_eq_of_toNat (a := a) (by omega),
        byte_eq_of_toNat (a := b) (by omega), byte_eq_of_toNat (a := c) (by omega)]
  | @four a b c d _ ha hb hlow hhigh hc hd hch =>
      have hval : ch.val.toNat = _ := hch
      unfold IsTail at hb hc hd
      rw [hval, if_neg (by omega), if_neg (by omega), if_neg (by omega), byte_eq_of_toNat (a := a) (by omega),
        byte_eq_of_toNat (a := b) (by omega), byte_eq_of_toNat (a := c) (by omega), byte_eq_of_toNat (a := d) (by omega)]

theorem sequence_encode (ch : Char) : Sequence (String.utf8EncodeChar ch) ch := by
  have hvalid : ch.toNat.isValidChar := ch.valid
  simp only [Nat.isValidChar] at hvalid
  have hval : ch.val.toNat = ch.toNat := rfl
  unfold String.utf8EncodeChar
  simp only [hval]
  generalize hn : ch.toNat = n at hvalid
  split
  · have ha := Bytes.toNat_ofNat (show n < 256 by omega)
    exact .one (by omega) (by omega)
  split
  · have ha := Bytes.toNat_ofNat (show n / 64 % 32 + 192 < 256 by omega)
    have hb := Bytes.toNat_ofNat (show n % 64 + 128 < 256 by omega)
    exact .two (by omega) ⟨by omega, by omega⟩ (by omega)
  have hlast := Bytes.toNat_ofNat (show n % 64 + 128 < 256 by omega)
  have hnext := Bytes.toNat_ofNat (show n / 64 % 64 + 128 < 256 by omega)
  split
  · have ha := Bytes.toNat_ofNat (show n / 4096 % 16 + 224 < 256 by omega)
    exact .three (by omega) ⟨by omega, by omega⟩ (by omega) (by omega) ⟨by omega, by omega⟩ (by omega)
  · have ha := Bytes.toNat_ofNat (show n / 262144 % 8 + 240 < 256 by omega)
    have hb := Bytes.toNat_ofNat (show n / 4096 % 64 + 128 < 256 by omega)
    exact .four (by omega) ⟨by omega, by omega⟩ (by omega) (by omega) ⟨by omega, by omega⟩ ⟨by omega, by omega⟩
      (by omega)

theorem Sequence.length_eq {bs : Bytes} {ch : Char} (h : Sequence bs ch) : bs.length = ch.utf8Size := by
  rw [h.eq_encode, String.length_utf8EncodeChar]

/-! ## Decoding sequences -/

theorem start_four (ha : 0xF0 ≤ a.toNat ∧ a.toNat < 0xF5) :
    start decoded a = ⟨decoded, some ⟨a.toNat - 0xF0, 3, if a.toNat = 0xF0 then 0x90 else 0x80,
      if a.toNat = 0xF4 then 0x8F else 0xBF⟩⟩ := by
  by_cases hlow : a.toNat = 0xF0
  · simp [start, hlow]
  by_cases hhigh : a.toNat = 0xF4
  · simp [start, hhigh]
  simp (disch := omega) only [start, if_neg, if_pos]

theorem start_beyond (ha : 0xF5 ≤ a.toNat) : start decoded a = ⟨none :: decoded, none⟩ := by
  simp (disch := omega) only [start, if_neg]

theorem foldl_step_four (ha : 0xF0 ≤ a.toNat ∧ a.toNat < 0xF5) (hb : IsTail b) (hlow : a.toNat = 0xF0 → 0x90 ≤ b.toNat)
    (hhigh : a.toNat = 0xF4 → b.toNat ≤ 0x8F) (hc : IsTail c) (hd : IsTail d) :
    [a, b, c, d].foldl step ⟨decoded, none⟩ =
      ⟨some (Char.ofNat (64 * (64 * (64 * (a.toNat - 0xF0) + (b.toNat - 0x80)) + (c.toNat - 0x80)) +
        (d.toNat - 0x80))) :: decoded, none⟩ := by
  unfold IsTail at hb hc hd
  have hnext : (if a.toNat = 0xF0 then 0x90 else 0x80) ≤ b.toNat ∧
      b.toNat ≤ if a.toNat = 0xF4 then 0x8F else 0xBF := by
    split <;> split <;> omega
  simp [step, start_four ha, hnext, hc, hd]

theorem Sequence.foldl_step {bs : Bytes} {ch : Char} (h : Sequence bs ch) :
    bs.foldl step ⟨decoded, none⟩ = ⟨some ch :: decoded, none⟩ := by
  cases h with
  | one ha hch => rw [List.foldl_cons, List.foldl_nil, step, start_one ha, Utf16.ofNat_eq_of_toNat hch]
  | two ha hb hch => rw [foldl_step_two ha hb, Utf16.ofNat_eq_of_toNat hch]
  | three ha hb hlow hhigh hc hch => rw [foldl_step_three ha hb hlow hhigh hc, Utf16.ofNat_eq_of_toNat hch]
  | four ha hb hlow hhigh hc hd hch => rw [foldl_step_four ha hb hlow hhigh hc hd, Utf16.ofNat_eq_of_toNat hch]

theorem characters_encode (cs : List Char) : characters (cs.flatMap String.utf8EncodeChar) = cs.map some := by
  have hrun (decoded : List (Option Char)) : (cs.flatMap String.utf8EncodeChar).foldl step ⟨decoded, none⟩ =
      ⟨(cs.map some).reverse ++ decoded, none⟩ := by
    induction cs generalizing decoded with
    | nil => rfl
    | cons ch cs ih =>
        rw [List.flatMap_cons, List.foldl_append, (sequence_encode ch).foldl_step, ih]
        simp
  rw [characters, hrun]
  simp [Progress.finish]

/-! ## Only sequences are decoded -/

/-- No malformed stretch has been met, and none is met on the bytes. -/
def Accepts (p : Progress) (bs : Bytes) : Prop := none ∉ (bs.foldl step p).finish

theorem none_mem_step {p : Progress} (h : none ∈ p.decoded) (byte : UInt8) : none ∈ (step p byte).decoded := by
  have hstart (decoded : List (Option Char)) (hd : none ∈ decoded) : none ∈ (start decoded byte).decoded := by
    unfold start
    dsimp only
    repeat' split
    all_goals simp [hd]
  unfold step
  split
  · exact hstart _ h
  · dsimp only
    split
    · split
      · exact List.mem_cons_of_mem _ h
      · exact h
    · exact hstart _ (List.mem_cons_of_mem _ h)

theorem not_accepts_of_none_mem {p : Progress} {bs : Bytes} (h : none ∈ p.decoded) : ¬Accepts p bs := by
  induction bs generalizing p with
  | nil =>
      unfold Accepts Progress.finish
      split <;> simp [h]
  | cons byte bs ih => exact ih (none_mem_step h byte)

/-- A character under way goes on with a byte in its bounds. -/
theorem Accepts.next {value owed low high : Nat} {bs : Bytes} (h : Accepts ⟨decoded, some ⟨value, owed, low, high⟩⟩ bs) :
    ∃ b rest, bs = b :: rest ∧ low ≤ b.toNat ∧ b.toNat ≤ high ∧
      (1 < owed → Accepts ⟨decoded, some ⟨64 * value + (b.toNat - 0x80), owed - 1, 0x80, 0xBF⟩⟩ rest) := by
  cases bs with
  | nil => simp [Accepts, Progress.finish] at h
  | cons b rest =>
      change Accepts (step ⟨decoded, some ⟨value, owed, low, high⟩⟩ b) rest at h
      by_cases hb : low ≤ b.toNat ∧ b.toNat ≤ high
      · refine ⟨b, rest, rfl, hb.1, hb.2, fun howed => ?_⟩
        simpa only [step, if_pos hb, if_neg (Nat.not_le.mpr howed)] using h
      · -- the byte breaks the character off
        have hnone : none ∈ (step ⟨none :: decoded, none⟩ b).decoded := none_mem_step List.mem_cons_self b
        simp only [step, if_neg hb] at h hnone
        exact absurd h (not_accepts_of_none_mem hnone)

theorem exists_char {n : Nat} (h : n < 0xD800 ∨ 0xDFFF < n ∧ n < 0x110000) : ∃ ch : Char, ch.toNat = n :=
  ⟨Char.ofNat n, Utf16.toNat_ofNat_of_valid h⟩

/-- A first byte that asks for one, two or three more gets them. -/
theorem Accepts.exists_two {bs : Bytes} (h : Accepts (start decoded a) bs) (ha : 0xC2 ≤ a.toNat ∧ a.toNat < 0xE0) :
    ∃ b rest ch, bs = b :: rest ∧ Sequence [a, b] ch := by
  rw [start_two ha] at h
  obtain ⟨b, rest, rfl, hb, hb', -⟩ := h.next
  obtain ⟨ch, hch⟩ := exists_char (n := 64 * (a.toNat - 0xC0) + (b.toNat - 0x80)) (by omega)
  exact ⟨b, rest, ch, rfl, .two ha ⟨hb, hb'⟩ hch⟩

theorem Accepts.exists_three {bs : Bytes} (h : Accepts (start decoded a) bs) (ha : 0xE0 ≤ a.toNat ∧ a.toNat < 0xF0) :
    ∃ b c rest ch, bs = b :: c :: rest ∧ Sequence [a, b, c] ch := by
  rw [start_three ha] at h
  obtain ⟨b, _, rfl, hb, hb', h⟩ := h.next
  obtain ⟨c, rest, rfl, hc, hc', -⟩ := (h (by decide)).next
  have htail : IsTail b := by
    split at hb <;> split at hb' <;> exact ⟨by omega, by omega⟩
  have hlow : a.toNat = 0xE0 → 0xA0 ≤ b.toNat := fun ha => by rwa [if_pos ha] at hb
  have hhigh : a.toNat = 0xED → b.toNat ≤ 0x9F := fun ha => by rwa [if_pos ha] at hb'
  obtain ⟨ch, hch⟩ := exists_char (n := 64 * (64 * (a.toNat - 0xE0) + (b.toNat - 0x80)) + (c.toNat - 0x80)) (by
    unfold IsTail at htail
    omega)
  exact ⟨b, c, rest, ch, rfl, .three ha htail hlow hhigh ⟨hc, hc'⟩ hch⟩

theorem Accepts.exists_four {bs : Bytes} (h : Accepts (start decoded a) bs) (ha : 0xF0 ≤ a.toNat ∧ a.toNat < 0xF5) :
    ∃ b c d rest ch, bs = b :: c :: d :: rest ∧ Sequence [a, b, c, d] ch := by
  rw [start_four ha] at h
  obtain ⟨b, _, rfl, hb, hb', h⟩ := h.next
  obtain ⟨c, _, rfl, hc, hc', h⟩ := (h (by decide)).next
  obtain ⟨d, rest, rfl, hd, hd', -⟩ := (h (by decide)).next
  have htail : IsTail b := by
    split at hb <;> split at hb' <;> exact ⟨by omega, by omega⟩
  have hlow : a.toNat = 0xF0 → 0x90 ≤ b.toNat := fun ha => by rwa [if_pos ha] at hb
  have hhigh : a.toNat = 0xF4 → b.toNat ≤ 0x8F := fun ha => by rwa [if_pos ha] at hb'
  obtain ⟨ch, hch⟩ := exists_char
    (n := 64 * (64 * (64 * (a.toNat - 0xF0) + (b.toNat - 0x80)) + (c.toNat - 0x80)) + (d.toNat - 0x80)) (by
      unfold IsTail at htail
      omega)
  exact ⟨b, c, d, rest, ch, rfl, .four ha htail hlow hhigh ⟨hc, hc'⟩ ⟨hd, hd'⟩ hch⟩

theorem Accepts.exists_sequence {bs : Bytes} (h : Accepts ⟨decoded, none⟩ (a :: bs)) :
    ∃ first rest ch, a :: bs = first ++ rest ∧ Sequence first ch := by
  change Accepts (start decoded a) bs at h
  have hwell : start decoded a ≠ ⟨none :: decoded, none⟩ := by
    intro hstart
    rw [hstart] at h
    exact not_accepts_of_none_mem List.mem_cons_self h
  by_cases hone : a.toNat < 0x80
  · obtain ⟨ch, hch⟩ := exists_char (n := a.toNat) (by omega)
    exact ⟨[a], bs, ch, rfl, .one hone hch⟩
  by_cases hstray : a.toNat < 0xC2
  · exact absurd (start_stray ⟨by omega, hstray⟩) hwell
  by_cases htwo : a.toNat < 0xE0
  · obtain ⟨b, rest, ch, rfl, hseq⟩ := h.exists_two ⟨by omega, htwo⟩
    exact ⟨_, rest, ch, rfl, hseq⟩
  by_cases hthree : a.toNat < 0xF0
  · obtain ⟨b, c, rest, ch, rfl, hseq⟩ := h.exists_three ⟨by omega, hthree⟩
    exact ⟨_, rest, ch, rfl, hseq⟩
  by_cases hfour : a.toNat < 0xF5
  · obtain ⟨b, c, d, rest, ch, rfl, hseq⟩ := h.exists_four ⟨by omega, hfour⟩
    exact ⟨_, rest, ch, rfl, hseq⟩
  · exact absurd (start_beyond (by omega)) hwell

theorem Accepts.exists_encode {bs : Bytes} (h : Accepts ⟨decoded, none⟩ bs) :
    ∃ cs : List Char, bs = cs.flatMap String.utf8EncodeChar := by
  induction hn : bs.length using Nat.strong_induction_on generalizing bs decoded with
  | h n ih =>
      cases bs with
      | nil => exact ⟨[], rfl⟩
      | cons a bs =>
          obtain ⟨first, rest, ch, hbs, hfirst⟩ := h.exists_sequence
          rw [hbs] at h hn ⊢
          have hrest : Accepts ⟨some ch :: decoded, none⟩ rest := by
            rwa [Accepts, List.foldl_append, hfirst.foldl_step] at h
          have hshort : rest.length < n := by
            have hpos : 0 < ch.utf8Size := ch.utf8Size_pos
            rw [List.length_append, hfirst.length_eq] at hn
            omega
          obtain ⟨cs, rfl⟩ := ih rest.length hshort hrest rfl
          exact ⟨ch :: cs, by rw [List.flatMap_cons, ← hfirst.eq_encode]⟩

/-- Strict decoding undoes encoding and accepts nothing else. -/
theorem decode?_eq_some_iff_utf8 {bs : Bytes} {text : String} : decode? bs = some text ↔ bs = utf8 text := by
  rw [decode?_eq_some_iff, utf8_eq_flatMap]
  constructor
  · intro h
    have haccepts : Accepts ⟨[], none⟩ bs := by
      change none ∉ characters bs
      simp [h]
    obtain ⟨cs, rfl⟩ := haccepts.exists_encode
    rw [characters_encode] at h
    rw [List.map_inj_right (fun _ _ => Option.some.inj) |>.mp h]
  · rintro rfl
    exact characters_encode text.toList

theorem decodeLossy_utf8 (text : String) : decodeLossy (utf8 text) = text := by
  rw [decodeLossy, utf8_eq_flatMap, characters_encode, List.map_map]
  simp [Function.comp_def]

/-! ## Cuts at bytes of their own -/

theorem Sequence.eq_singleton_of_mem {bs : Bytes} {ch : Char} (h : Sequence bs ch) (hb : b ∈ bs) (hlow : b.toNat < 0x80) :
    bs = [b] := by
  cases h with
  | one _ _ => rw [List.mem_singleton.mp hb]
  | _ =>
      simp only [List.mem_cons, List.not_mem_nil, or_false] at hb
      grind [IsTail]

/-- What stands before and behind a byte that is a character of its own is UTF-8 again. -/
theorem exists_texts_of_cut {text : String} {before after : Bytes} (hlow : b.toNat < 0x80)
    (h : utf8 text = before ++ b :: after) : ∃ front back, before = utf8 front ∧ after = utf8 back := by
  suffices hcut : ∀ cs : List Char, cs.flatMap String.utf8EncodeChar = before ++ b :: after →
      ∃ front back : List Char, before = front.flatMap String.utf8EncodeChar ∧
        after = back.flatMap String.utf8EncodeChar by
    obtain ⟨front, back, hfront, hback⟩ := hcut text.toList (by rw [← utf8_eq_flatMap, h])
    exact ⟨String.ofList front, String.ofList back, by simp [utf8_eq_flatMap, hfront], by simp [utf8_eq_flatMap, hback]⟩
  intro cs hcs
  clear h
  induction cs generalizing before with
  | nil => simp at hcs
  | cons ch cs ih =>
      rw [List.flatMap_cons] at hcs
      rcases List.append_eq_append_iff.mp hcs with ⟨rest, rfl, hrest⟩ | ⟨rest, hfirst, hrest⟩
      · obtain ⟨front, back, rfl, rfl⟩ := ih hrest
        exact ⟨ch :: front, back, rfl, rfl⟩
      · cases rest with
        | nil =>
            obtain ⟨front, back, hfront, hback⟩ := ih (show _ = [] ++ b :: after from hrest.symm)
            exact ⟨ch :: front, back, by simp [hfirst, ← hfront], hback⟩
        | cons first rest =>
            -- the character is the byte itself
            obtain ⟨rfl, rfl⟩ := List.cons_eq_cons.mp hrest
            have hsingle := (sequence_encode ch).eq_singleton_of_mem (by simp [hfirst]) hlow
            obtain ⟨rfl, rfl⟩ : before = [] ∧ rest = [] := by simpa [hsingle, List.append_eq_cons_iff] using hfirst.symm
            exact ⟨[], cs, rfl, rfl⟩

end Utf8

namespace ModifiedUtf8

/-! ## Unit by unit -/

/-- What becomes of a character of plain UTF-8 that is read unit by unit. -/
def spread (ch : Char) : List Char :=
  if ch.utf8Size = 4 then List.replicate 4 replacement else [ch]

/-- The units that are read from the sequence of a character. -/
def spreadUnits (ch : Char) : List UInt16 :=
  (spread ch).map fun c => UInt16.ofNat c.toNat

theorem unitsAfter_stray {read : List UInt16} {bs : Bytes} {a : UInt8}
    (ha : 0x80 ≤ a.toNat ∧ a.toNat < 0xC0 ∨ 0xF0 ≤ a.toNat) :
    unitsAfter read (a :: bs) = unitsAfter (0xFFFD :: read) bs := by
  have hone : ¬a &&& 0x80 = 0 := by
    rw [begins_one_iff]
    omega
  have htwo : ¬a &&& 0xE0 = 0xC0 := by
    rw [begins_two_iff]
    omega
  have hthree : ¬a &&& 0xF0 = 0xE0 := by
    rw [begins_three_iff]
    omega
  rw [unitsAfter.eq_def]
  simp only [if_neg hone, if_neg htwo, if_neg hthree]

theorem spreadUnits_of_ne {ch : Char} (h : ch.utf8Size ≠ 4) : spreadUnits ch = [UInt16.ofNat ch.toNat] := by
  rw [spreadUnits, spread, if_neg h]
  rfl

theorem spreadUnits_of_eq {ch : Char} (h : ch.utf8Size = 4) : spreadUnits ch = List.replicate 4 0xFFFD := by
  rw [spreadUnits, spread, if_pos h]
  rfl

theorem toNat_unit {ch : Char} (h : ch.toNat < 0x10000) : (UInt16.ofNat ch.toNat).toNat = ch.toNat :=
  UInt16.toNat_ofNat_of_lt' h

theorem unitsAfter_sequence_append {seq rest : Bytes} {ch : Char} (h : Utf8.Sequence seq ch) (read : List UInt16) :
    unitsAfter read (seq ++ rest) = unitsAfter ((spreadUnits ch).reverse ++ read) rest := by
  have hlen := h.length_eq
  cases h with
  | one ha hch =>
      rw [spreadUnits_of_ne (by simp [← hlen])]
      exact unitsAfter_one ha (by rw [toNat_unit (by omega), hch])
  | two ha hb hch =>
      unfold Utf8.IsTail at hb
      rw [spreadUnits_of_ne (by simp [← hlen])]
      exact unitsAfter_two (by omega) (by rw [toNat_unit (by omega), hch]; omega)
  | three ha hb hlow hhigh hc hch =>
      unfold Utf8.IsTail at hb hc
      rw [spreadUnits_of_ne (by simp [← hlen])]
      exact unitsAfter_three ha (by rw [toNat_unit (by omega), hch]; omega)
  | four ha hb hlow hhigh hc hd hch =>
      unfold Utf8.IsTail at hb hc hd
      rw [spreadUnits_of_eq hlen.symm]
      simp only [List.cons_append, List.nil_append]
      rw [unitsAfter_stray (by omega), unitsAfter_stray (by omega), unitsAfter_stray (by omega),
        unitsAfter_stray (by omega)]
      rfl

theorem units_utf8 (text : String) : units (utf8 text) = text.toList.flatMap spreadUnits := by
  have hafter (cs : List Char) (read : List UInt16) :
      unitsAfter read (cs.flatMap String.utf8EncodeChar) = read.reverse ++ cs.flatMap spreadUnits := by
    induction cs generalizing read with
    | nil => simp [unitsAfter]
    | cons ch cs ih =>
        rw [List.flatMap_cons, unitsAfter_sequence_append (Utf8.sequence_encode ch), ih]
        simp
  rw [utf8_eq_flatMap]
  exact hafter text.toList []

/-- Units of characters of up to three bytes are read as these characters. -/
theorem reads_map_unit {cs : List Char} {us : List UInt16} {out : List Char} (hcs : ∀ c ∈ cs, c.toNat < 0x10000)
    (h : Utf16.Reads us out) : Utf16.Reads (cs.map (fun c => UInt16.ofNat c.toNat) ++ us) (cs ++ out) := by
  induction cs with
  | nil => exact h
  | cons c cs ih =>
      have hsmall : c.toNat < 0x10000 := hcs c List.mem_cons_self
      have hread := (ih fun d hd => hcs d (List.mem_cons_of_mem c hd)).encodeChar_append c
      rwa [Utf16.encodeChar, if_pos hsmall] at hread

theorem toNat_lt_of_mem_spread {ch c : Char} (h : c ∈ spread ch) : c.toNat < 0x10000 := by
  unfold spread at h
  split at h
  · rw [List.eq_of_mem_replicate h]
    decide
  · rename_i hsize
    rw [List.mem_singleton.mp h]
    rw [Char.utf8Size_eq_four_iff, UInt32.lt_iff_toNat_lt] at hsize
    have hle : ¬65535 < ch.toNat := hsize
    omega

theorem toList_decodeUnits_utf8 (text : String) : (decodeUnits (utf8 text)).toList = text.toList.flatMap spread := by
  have hreads (cs : List Char) : Utf16.Reads (cs.flatMap spreadUnits) (cs.flatMap spread) := by
    induction cs with
    | nil => exact .nil
    | cons ch cs ih => exact reads_map_unit (fun c hc => toNat_lt_of_mem_spread hc) ih
  rw [decodeUnits, String.toList_ofList, units_utf8, Utf16.reads_iff.mp (hreads text.toList)]

/-! ## The two ways compared -/

theorem length_flatMap_spread (cs : List Char) :
    (cs.flatMap spread).length = cs.length + 3 * cs.countP (·.utf8Size = 4) := by
  induction cs with
  | nil => rfl
  | cons ch cs ih =>
      rw [List.flatMap_cons, List.length_append, ih, List.length_cons, List.countP_cons]
      by_cases hsize : ch.utf8Size = 4
      · simp [spread, hsize]
        omega
      · simp [spread, hsize]
        omega

theorem flatMap_spread_eq_iff {cs : List Char} : cs.flatMap spread = cs ↔ ∀ ch ∈ cs, ch.utf8Size ≠ 4 := by
  constructor
  · intro h
    have hcount : cs.countP (·.utf8Size = 4) = 0 := by
      have hlen := length_flatMap_spread cs
      rw [h] at hlen
      omega
    simpa [List.countP_eq_zero] using hcount
  · intro h
    induction cs with
    | nil => rfl
    | cons ch cs ih =>
        rw [List.flatMap_cons, spread, if_neg (h ch List.mem_cons_self),
          ih fun d hd => h d (List.mem_cons_of_mem ch hd)]
        rfl

theorem forall_mem_sequence_lt_iff {seq : Bytes} {ch : Char} (h : Utf8.Sequence seq ch) :
    (∀ b ∈ seq, b < 0xF0) ↔ ch.utf8Size ≠ 4 := by
  have hlen := h.length_eq
  have hlt (b : UInt8) : b < 0xF0 ↔ b.toNat < 0xF0 := UInt8.lt_iff_toNat_lt
  cases h with
  | one ha _ =>
      refine iff_of_true ?_ (by simp [← hlen])
      simp only [List.forall_mem_singleton, hlt]
      omega
  | two ha hb _ =>
      unfold Utf8.IsTail at hb
      refine iff_of_true ?_ (by simp [← hlen])
      simp only [List.mem_cons, List.not_mem_nil, or_false, forall_eq_or_imp, forall_eq, hlt]
      omega
  | three ha hb _ _ hc _ =>
      unfold Utf8.IsTail at hb hc
      refine iff_of_true ?_ (by simp [← hlen])
      simp only [List.mem_cons, List.not_mem_nil, or_false, forall_eq_or_imp, forall_eq, hlt]
      omega
  | @four a b c d _ ha _ _ _ _ _ _ =>
      refine iff_of_false (fun hall => ?_) (by simp [← hlen])
      have hfirst := (hlt a).mp (hall a List.mem_cons_self)
      omega

theorem forall_mem_utf8_lt_iff {text : String} :
    (∀ b ∈ utf8 text, b < 0xF0) ↔ ∀ ch ∈ text.toList, ch.utf8Size ≠ 4 := by
  rw [utf8_eq_flatMap, List.forall_mem_flatMap]
  exact forall₂_congr fun ch _ => forall_mem_sequence_lt_iff (Utf8.sequence_encode ch)

/-- Bytes are taken as plain UTF-8 exactly if they are the encoding of a text. Reading them unit by unit then gives that
text with four replacement characters for each character of four bytes, and so the text itself exactly if there is none
of these. -/
theorem decodeUnits_of_plain_utf8 (bs : Bytes) (text : String) :
    (Utf8.decode? bs = some text ↔ bs = utf8 text) ∧
      (Utf8.decode? bs = some text →
        decode bs = text ∧
        (decodeUnits bs = text ↔ ∀ b ∈ bs, b < 0xF0) ∧
        (decodeUnits bs).length = text.length + 3 * text.toList.countP (·.utf8Size = 4) ∧
        (decodeUnits bs).toList = text.toList.flatMap fun ch =>
          if ch.utf8Size = 4 then [replacement, replacement, replacement, replacement] else [ch]) := by
  refine ⟨Utf8.decode?_eq_some_iff_utf8, fun h => ?_⟩
  have hdecode : decode bs = text := by rw [decode, h]
  obtain rfl := Utf8.decode?_eq_some_iff_utf8.mp h
  refine ⟨hdecode, ?_, ?_, toList_decodeUnits_utf8 text⟩
  · rw [forall_mem_utf8_lt_iff, ← flatMap_spread_eq_iff, ← toList_decodeUnits_utf8, String.toList_inj]
  · rw [← String.length_toList, toList_decodeUnits_utf8, length_flatMap_spread, String.length_toList]

/-- Characters of one to four bytes. -/
theorem decodeUnits_of_plain_utf8_widths :
    Utf8.decode? [0x61, 0xC3, 0xA9, 0xE2, 0x82, 0xAC, 0xF0, 0x9F, 0x98, 0x80] = some "aé€😀" ∧
      decodeUnits [0x61, 0xC3, 0xA9, 0xE2, 0x82, 0xAC, 0xF0, 0x9F, 0x98, 0x80] ≠ "aé€😀" ∧
      (decodeUnits [0x61, 0xC3, 0xA9, 0xE2, 0x82, 0xAC, 0xF0, 0x9F, 0x98, 0x80]).length = 4 + 3 * 1 := by
  have h : Utf8.decode? [0x61, 0xC3, 0xA9, 0xE2, 0x82, 0xAC, 0xF0, 0x9F, 0x98, 0x80] = some "aé€😀" := by
    decide +kernel
  obtain ⟨-, hequal, hlength, -⟩ := (decodeUnits_of_plain_utf8 _ _).2 h
  refine ⟨h, ?_, hlength⟩
  rw [ne_eq, hequal]
  intro hall
  exact absurd (hall 0xF0 (by simp)) (by decide)

end ModifiedUtf8

end MethodScout.Text
