import MethodScout.ClassFile.Basic
import MethodScout.Proofs.Formats

/-!
# Class files that are cut off

A decoder is prefix-stable when it depends on no byte that it does not take: with more bytes behind, it does the same;
with some of the bytes that it takes cut off, it says that the data end too early, and at which read. Decoders that are
put together from prefix-stable ones are prefix-stable. The code in a class file has a reader of its own, but it is read
only after all its bytes have been taken.
-/

namespace MethodScout

namespace Reader

variable {ε α β : Type}

theorem bind_eq_error {p : Reader ε α} {q : α → Reader ε β} {c : Cursor} {e : ε} :
    (p >>= q) c = .error e ↔ p c = .error e ∨ ∃ a c', p c = .ok (a, c') ∧ q a c' = .error e := by
  simp only [Bind.bind, StateT.bind, Except.bind]
  cases hc : p c with
  | error e' => simp
  | ok r => simp [Prod.ext_iff, eq_comm]

end Reader

namespace Decoder

open Reader

variable {α β : Type} {p q : Decoder α} {k : α → Decoder β} {o : Nat} {bs : Bytes}

/-- The decoder stops at a read that the bytes, which begin at the offset, do not suffice for. -/
def RunsOut (p : Decoder α) (o : Nat) (bs : Bytes) : Prop :=
  ∃ s : Shortfall, p ⟨o, bs⟩ = .error (.truncated s) ∧
    s.offset ≤ o + bs.length ∧ o + bs.length < s.offset + s.wanted

/-- The decoder depends on no byte that it does not take. -/
structure PrefixStable (p : Decoder α) : Prop where
  ok : ∀ {o : Nat} {bs : Bytes} {a : α} {c : Cursor}, p ⟨o, bs⟩ = .ok (a, c) →
    ∃ taken rest, bs = taken ++ rest ∧ (∀ more, p ⟨o, taken ++ more⟩ = .ok (a, ⟨o + taken.length, more⟩)) ∧
      ∀ m < taken.length, p.RunsOut o (taken.take m)
  fault : ∀ {o : Nat} {bs : Bytes} {f : DecodeFault}, p ⟨o, bs⟩ = .error f → (∀ s, f ≠ .truncated s) →
    ∀ more, p ⟨o, bs ++ more⟩ = .error f

/-! ## Single steps -/

theorem prefixStable_pure (a : α) : (pure a : Decoder α).PrefixStable where
  ok {o bs b c} h := by
    cases h
    exact ⟨[], bs, rfl, fun _ => rfl, fun m hm => absurd hm (Nat.not_lt_zero m)⟩
  fault h := by cases h

theorem prefixStable_throw (f : DecodeFault) : (throw f : Decoder α).PrefixStable where
  ok h := by cases h
  fault h _ more := by
    cases h
    rfl

theorem prefixStable_lift (x : Except DecodeFault α) : (liftM x : Decoder α).PrefixStable := by
  cases x with
  | error f => exact prefixStable_throw f
  | ok a => exact prefixStable_pure a

theorem prefixStable_bytes (n : Nat) : (bytes n).PrefixStable where
  ok {o bs a c} h := by
    obtain ⟨taken, rfl, -, hlen, rfl⟩ := (follows_bytes n o bs a c.offset c.rest).mp h
    refine ⟨a, c.rest, rfl, fun more => (follows_bytes n).run ⟨hlen, rfl⟩ more, fun m hm => ?_⟩
    refine ⟨⟨o, n⟩, ?_, ?_, ?_⟩
    · have hshort : ¬n ≤ (a.take m).length := by simp; omega
      simp only [bytes, take, Bytes.holds_iff, hshort, ↓reduceIte]
    · exact Nat.le_add_right _ _
    · simp only [List.length_take]
      omega
  fault {o bs f} h hf := by
    unfold bytes take at h
    split at h
    · cases h
    · cases h
      exact absurd rfl (hf _)

/-! ## Steps put together -/

theorem RunsOut.bind (h : p.RunsOut o bs) : (p >>= k).RunsOut o bs := by
  obtain ⟨s, hs, hbounds⟩ := h
  exact ⟨s, bind_eq_error.mpr (.inl hs), hbounds⟩

theorem RunsOut.after {a : α} {first : Bytes} (hp : p ⟨o, first ++ bs⟩ = .ok (a, ⟨o + first.length, bs⟩))
    (hk : (k a).RunsOut (o + first.length) bs) : (p >>= k).RunsOut o (first ++ bs) := by
  obtain ⟨s, hs, hbounds⟩ := hk
  refine ⟨s, bind_eq_error.mpr (.inr ⟨a, _, hp, hs⟩), ?_⟩
  rwa [List.length_append, ← Nat.add_assoc]

theorem PrefixStable.bind (hp : p.PrefixStable) (hk : ∀ a, (k a).PrefixStable) : (p >>= k).PrefixStable where
  ok {o bs b c} h := by
    obtain ⟨a, c', hpa, hkb⟩ := bind_eq_ok.mp h
    obtain ⟨first, rest, rfl, hfirst, hcut⟩ := hp.ok hpa
    cases hpa.symm.trans (hfirst rest)
    obtain ⟨second, rest, rfl, hsecond, hcut'⟩ := (hk a).ok hkb
    refine ⟨first ++ second, rest, (List.append_assoc _ _ _).symm, fun more => ?_, fun m hm => ?_⟩
    · rw [List.append_assoc, List.length_append, ← Nat.add_assoc]
      exact bind_eq_ok.mpr ⟨a, _, hfirst _, hsecond more⟩
    · -- the cut is in the bytes of the first step, or behind them in those of the second
      by_cases hlt : m < first.length
      · rw [List.take_append_of_le_length (Nat.le_of_lt hlt)]
        exact (hcut m hlt).bind
      · rw [List.take_append, List.take_of_length_le (Nat.le_of_not_lt hlt)]
        rw [List.length_append] at hm
        exact .after (hfirst _) (hcut' (m - first.length) (by omega))
  fault {o bs f} h hf more := by
    rcases bind_eq_error.mp h with hpf | ⟨a, c', hpa, hkf⟩
    · exact bind_eq_error.mpr (.inl (hp.fault hpf hf more))
    · obtain ⟨first, rest, rfl, hfirst, -⟩ := hp.ok hpa
      cases hpa.symm.trans (hfirst rest)
      rw [List.append_assoc]
      exact bind_eq_error.mpr (.inr ⟨a, _, hfirst _, (hk a).fault hkf hf more⟩)

theorem PrefixStable.map (h : p.PrefixStable) (f : α → β) : (p >>= fun a => pure (f a)).PrefixStable :=
  h.bind fun a => prefixStable_pure (f a)

theorem PrefixStable.ite {c : Prop} [Decidable c] (hp : p.PrefixStable) (hq : q.PrefixStable) :
    (if c then p else q).PrefixStable := by
  split
  · exact hp
  · exact hq

theorem PrefixStable.times (h : p.PrefixStable) (n : Nat) : PrefixStable (Reader.times n p) := by
  induction n with
  | zero => exact prefixStable_pure []
  | succ n ih =>
      rw [times_succ]
      exact h.bind fun a => ih.map (a :: ·)

theorem prefixStable_skip (n : Nat) : (skip n).PrefixStable := (prefixStable_bytes n).map _

theorem prefixStable_number (n : Nat) : (number n).PrefixStable := (prefixStable_bytes n).map _

theorem prefixStable_u8 : u8.PrefixStable := prefixStable_number 1

theorem prefixStable_u16 : u16.PrefixStable := prefixStable_number 2

theorem prefixStable_u32 : u32.PrefixStable := prefixStable_number 4

/-- An index, what it leads to, and then a step that uses that. -/
theorem prefixStable_indexed {f : Nat → Except DecodeFault α} (hk : ∀ a, (k a).PrefixStable) :
    (do k (← f (← u16)) : Decoder β).PrefixStable :=
  prefixStable_u16.bind fun n => (prefixStable_lift (f n)).bind hk

/-- A count, as many values as it says, and then a step that uses them. -/
theorem prefixStable_counted {k : List α → Decoder β} (hp : p.PrefixStable) (hk : ∀ as, (k as).PrefixStable) :
    (do k (← Reader.times (← u16) p) : Decoder β).PrefixStable :=
  prefixStable_u16.bind fun n => (hp.times n).bind hk

end Decoder

/-! ## The parts of a class file -/

open Decoder

namespace ConstantPool

theorem prefixStable_readPayload (index tag : Nat) : (readPayload index tag).PrefixStable := by
  have hskipped (n : Nat) (c : Constant) : (do skip n; return c : Decoder Constant).PrefixStable :=
    (prefixStable_skip n).map fun _ => c
  have hindices (f : Nat → Nat → Constant) : (do return f (← u16) (← u16) : Decoder Constant).PrefixStable :=
    prefixStable_u16.bind fun a => prefixStable_u16.map (f a)
  unfold readPayload
  split
  · exact prefixStable_u16.bind fun n => (prefixStable_bytes n).map _
  · exact hskipped 4 _
  · exact hskipped 4 _
  · exact hskipped 4 _
  · exact hskipped 4 _
  · exact hskipped 8 _
  · exact hskipped 8 _
  · exact prefixStable_u16.map _
  · exact hskipped 2 _
  · exact hskipped 2 _
  · exact hskipped 2 _
  · exact hskipped 2 _
  · exact hindices .methodRef
  · exact hindices .methodRef
  · exact hindices .nameAndType
  · exact hskipped 3 _
  · exact (prefixStable_skip 2).bind fun _ => prefixStable_u16.map _
  · exact prefixStable_throw _

theorem prefixStable_readSlots (missing : Nat) (slots : Array (Option Constant)) :
    (readSlots missing slots).PrefixStable := by
  have hconstant (index : Nat) : (readConstant index).PrefixStable :=
    prefixStable_u8.bind fun tag => prefixStable_readPayload index tag
  fun_induction readSlots missing slots with
  | case1 slots => exact prefixStable_pure slots
  | case2 slots => exact (hconstant slots.size).map _
  | case3 missing slots ihWide ihNarrow => exact (hconstant slots.size).bind fun c => (ihWide c).ite (ihNarrow c)

theorem prefixStable_read : read.PrefixStable :=
  prefixStable_u16.bind fun count => (prefixStable_readSlots (count - 1) #[none]).map ConstantPool.mk

end ConstantPool

namespace ClassFile

theorem prefixStable_readHeader : readHeader.PrefixStable := by
  have hversion : (do
      let minor ← u16
      let major ← u16
      if !supports major then throw (.unsupportedVersion major minor) : Decoder Unit).PrefixStable :=
    prefixStable_u16.bind fun minor => prefixStable_u16.bind fun major =>
      (prefixStable_throw _).ite (prefixStable_pure ())
  exact prefixStable_u32.bind fun word =>
    .ite ((prefixStable_throw (.badMagic word)).bind fun _ => hversion) hversion

theorem prefixStable_skipField : skipField.PrefixStable := by
  have hattribute : skipAttribute.PrefixStable :=
    (prefixStable_skip 2).bind fun _ => prefixStable_u32.bind prefixStable_skip
  exact (prefixStable_skip 6).bind fun _ => prefixStable_counted hattribute fun _ => prefixStable_pure ()

/-- The body of an attribute is taken whole before the code in it is read, so what the code lacks is not laid to the
bytes of the file. -/
theorem prefixStable_readAttribute (pool : ConstantPool) : (readAttribute pool).PrefixStable :=
  prefixStable_indexed fun _ => prefixStable_u32.bind fun n => (prefixStable_bytes n).bind fun body =>
    .ite ((prefixStable_lift (Reader.readAll codeArray body)).bind fun code =>
      (prefixStable_lift (Instruction.decode pool code)).map some) (prefixStable_pure none)

theorem prefixStable_readMethod (pool : ConstantPool) : (readMethod pool).PrefixStable :=
  prefixStable_u16.bind fun _ => prefixStable_indexed fun _ => prefixStable_indexed fun _ =>
    prefixStable_counted (prefixStable_readAttribute pool) fun _ => prefixStable_pure _

theorem prefixStable_read : read.PrefixStable :=
  prefixStable_readHeader.bind fun _ => ConstantPool.prefixStable_read.bind fun pool =>
    prefixStable_u16.bind fun _ => prefixStable_indexed fun _ => prefixStable_u16.bind fun _ =>
      prefixStable_u16.bind fun interfaces => (prefixStable_skip (2 * interfaces)).bind fun _ =>
        prefixStable_counted prefixStable_skipField fun _ =>
          prefixStable_counted (prefixStable_readMethod pool) fun _ => prefixStable_pure _

/-! ## Whole class files -/

/-- Of the bytes that a class is decoded from, some at the front suffice, whatever comes after them, and with fewer the
data end too early, inside the read that is told. A fault of any other kind stays, whatever comes after the bytes. -/
theorem decode_truncation_law (bs : Bytes) :
    (∀ c, decode bs = .ok c → ∃ n ≤ bs.length,
      (∀ m < n, ∃ offset wanted, decode (bs.take m) = .error (.truncated ⟨offset, wanted⟩) ∧
        offset ≤ m ∧ m < offset + wanted) ∧
      ∀ more, decode (bs.take n ++ more) = .ok c) ∧
    ∀ f, decode bs = .error f → (∀ s, f ≠ .truncated s) → ∀ more, decode (bs ++ more) = .error f := by
  refine ⟨fun c h => ?_, fun f h hf more => ?_⟩
  · obtain ⟨cursor, hread⟩ := Reader.readAll_eq_ok_iff.mp h
    obtain ⟨taken, rest, rfl, hrun, hcut⟩ := prefixStable_read.ok hread
    refine ⟨taken.length, by simp, fun m hm => ?_, fun more => ?_⟩
    · obtain ⟨s, hs, hle, hlt⟩ := hcut m hm
      rw [List.length_take, Nat.min_eq_left (Nat.le_of_lt hm), Nat.zero_add] at hle hlt
      rw [List.take_append_of_le_length (Nat.le_of_lt hm)]
      exact ⟨s.offset, s.wanted, Reader.readAll_eq_error_iff.mpr hs, hle, hlt⟩
    · rw [List.take_left]
      exact Reader.readAll_eq_ok_iff.mpr ⟨_, hrun more⟩
  · exact Reader.readAll_eq_error_iff.mpr (prefixStable_read.fault (Reader.readAll_eq_error_iff.mp h) hf more)

/-- A class with one method, which has the code array. -/
def jobWithCode (code : Bytes) : Bytes :=
  [0xCA, 0xFE, 0xBA, 0xBE, 0, 0, 0, 52, 0, 6, 1, 0, 3, 74, 111, 98, 7, 0, 1, 1, 0, 3, 114, 117, 110, 1, 0, 3, 40, 41, 86,
   1, 0, 4, 67, 111, 100, 101, 0, 0x21, 0, 2, 0, 0, 0, 0, 0, 0, 0, 1, 0, 1, 0, 3, 0, 4, 0, 1, 0, 5] ++
    Bytes.word 4 (8 + code.length) ++ [0, 1, 0, 1] ++ Bytes.word 4 code.length ++ code

theorem decode_truncation_law_code :
    decode (jobWithCode []) = .ok ⟨"Job", [⟨"run", 1, []⟩]⟩ ∧
      (∃ n ≤ (jobWithCode []).length,
        (∀ m < n, ∃ offset wanted, decode ((jobWithCode []).take m) = .error (.truncated ⟨offset, wanted⟩) ∧
          offset ≤ m ∧ m < offset + wanted) ∧
        ∀ more, decode ((jobWithCode []).take n ++ more) = .ok ⟨"Job", [⟨"run", 1, []⟩]⟩) ∧
      decode (jobWithCode [0xCA]) = .error (.invalidOpcode 0 0xCA) ∧
      ∀ more, decode (jobWithCode [0xCA] ++ more) = .error (.invalidOpcode 0 0xCA) := by
  have hok : decode (jobWithCode []) = .ok ⟨"Job", [⟨"run", 1, []⟩]⟩ := by decide +kernel
  have hfault : decode (jobWithCode [0xCA]) = .error (.invalidOpcode 0 0xCA) := by decide +kernel
  exact ⟨hok, (decode_truncation_law _).1 _ hok, hfault, (decode_truncation_law _).2 _ hfault (by simp)⟩

end ClassFile

end MethodScout
