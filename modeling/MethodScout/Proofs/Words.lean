import Mathlib.Algebra.Ring.Nat
import Mathlib.Data.List.Induction
import MethodScout.Bytes

/-!
# Numbers as bytes

`Bytes.word` writes a number with the most significant byte first, and `Bytes.bigEndian` reads it back.
-/

namespace MethodScout.Bytes

theorem forall_byte {P : UInt8 → Prop} (h : ∀ n : Fin 256, P (UInt8.ofNat n)) (b : UInt8) : P b := by
  simpa using h ⟨b.toNat, b.toNat_lt⟩

theorem toNat_ofNat {n : Nat} (h : n < 256) : (UInt8.ofNat n).toNat = n :=
  UInt8.toNat_ofNat_of_lt' h

/-- The last `width` digits of a number to base 256, the most significant first. -/
def word : (width n : Nat) → Bytes
  | 0, _ => []
  | width + 1, n => word width (n / 256) ++ [UInt8.ofNat n]

@[simp]
theorem length_word (width n : Nat) : (word width n).length = width := by
  induction width generalizing n with
  | zero => rfl
  | succ width ih => simp [word, ih]

theorem bigEndian_concat (bs : Bytes) (b : UInt8) : bigEndian (bs ++ [b]) = 256 * bigEndian bs + b.toNat := by
  simp [bigEndian]

theorem bigEndian_lt (bs : Bytes) : bigEndian bs < 256 ^ bs.length := by
  induction bs using List.reverseRecOn with
  | nil => simp [bigEndian]
  | append_singleton bs b ih =>
      have hb := b.toNat_lt
      simp only [bigEndian_concat, List.length_append, List.length_singleton, Nat.pow_succ]
      omega

theorem bigEndian_word {width n : Nat} (h : n < 256 ^ width) : bigEndian (word width n) = n := by
  induction width generalizing n with
  | zero => simp_all [word, bigEndian]
  | succ width ih =>
      have hn : n / 256 < 256 ^ width := Nat.div_lt_of_lt_mul (by rwa [Nat.pow_succ, Nat.mul_comm] at h)
      rw [word, bigEndian_concat, ih hn, UInt8.toNat_ofNat']
      omega

theorem word_bigEndian (bs : Bytes) : word bs.length (bigEndian bs) = bs := by
  induction bs using List.reverseRecOn with
  | nil => rfl
  | append_singleton bs b ih =>
      have hb := b.toNat_lt
      have hdiv : (256 * bigEndian bs + b.toNat) / 256 = bigEndian bs := by omega
      have hmod : UInt8.ofNat (256 * bigEndian bs + b.toNat) = b := by
        apply UInt8.toNat_inj.mp
        rw [UInt8.toNat_ofNat']
        omega
      rw [List.length_append, List.length_singleton, word, bigEndian_concat, hdiv, hmod, ih]

theorem bigEndian_eq_iff {width n : Nat} {bs : Bytes} :
    bs.length = width ∧ n = bigEndian bs ↔ n < 256 ^ width ∧ bs = word width n := by
  constructor
  · rintro ⟨rfl, rfl⟩
    exact ⟨bigEndian_lt bs, (word_bigEndian bs).symm⟩
  · rintro ⟨hn, rfl⟩
    exact ⟨length_word width n, (bigEndian_word hn).symm⟩

end MethodScout.Bytes
