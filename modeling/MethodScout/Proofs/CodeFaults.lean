import MethodScout.Proofs.CodeGrammar
import MethodScout.Proofs.Truncation

/-!
# Faults of code arrays

`Decoder.Faults` says with which faults a decoder stops, and on which bytes: a read that runs out of bytes lies at the end
of them, and every other fault arises exactly where the predicate says. `Instruction.Flaw` tells the faults of a single
instruction. Code that cannot be decoded is cut by its first flawed instruction: what stands before it is the longest
part at the front that can be decoded.
-/

namespace MethodScout

/-- The faults of what an index of the constant pool leads to. -/
inductive DecodeFault.IsReference : DecodeFault → Prop
  | badConstantIndex (index : Nat) : IsReference (.badConstantIndex index)
  | unexpectedConstant (index : Nat) (expected : ConstantKind) : IsReference (.unexpectedConstant index expected)
  | malformedDescriptor (descriptor : String) : IsReference (.malformedDescriptor descriptor)

/-! ## References -/

namespace Attempt

variable {ε α β : Type} {P : ε → Prop} {x : Except ε α} {f : α → Except ε β}

theorem bind_eq_error {e : ε} : (x >>= f) = .error e ↔ x = .error e ∨ ∃ a, x = .ok a ∧ f a = .error e := by
  cases x <;> simp [bind, Except.bind]

/-- A step fails only with errors of one sort. -/
def FailsIn (P : ε → Prop) (x : Except ε α) : Prop := ∀ e, x = .error e → P e

theorem failsIn_ok (a : α) : FailsIn P (.ok a : Except ε α) := by
  intro e h
  cases h

theorem failsIn_error {e : ε} (he : P e) : FailsIn P (.error e : Except ε α) := by
  intro e' h
  cases h
  exact he

theorem FailsIn.bind (hx : FailsIn P x) (hf : ∀ a, FailsIn P (f a)) : FailsIn P (x >>= f) := by
  intro e h
  rcases bind_eq_error.mp h with hxe | ⟨a, -, hfe⟩
  · exact hx e hxe
  · exact hf a e hfe

end Attempt

open Attempt (FailsIn failsIn_ok failsIn_error)

theorem Descriptor.failsIn_returnType (descriptor : String) :
    FailsIn DecodeFault.IsReference (returnType descriptor) := by
  unfold returnType
  split
  · exact failsIn_ok _
  · exact failsIn_error (.malformedDescriptor descriptor)

namespace ConstantPool

variable (pool : ConstantPool) (index : Nat)

theorem failsIn_get : FailsIn DecodeFault.IsReference (pool.get index) := by
  unfold get
  split
  · exact failsIn_ok _
  · exact failsIn_error (.badConstantIndex index)

theorem failsIn_utf8 : FailsIn DecodeFault.IsReference (pool.utf8 index) := by
  refine (failsIn_get pool index).bind fun c => ?_
  split
  · exact failsIn_ok _
  · exact failsIn_error (.unexpectedConstant index .utf8)

theorem failsIn_className : FailsIn DecodeFault.IsReference (pool.className index) := by
  refine (failsIn_get pool index).bind fun c => ?_
  split
  · exact failsIn_utf8 pool _
  · exact failsIn_error (.unexpectedConstant index .classRef)

theorem failsIn_nameAndType : FailsIn DecodeFault.IsReference (pool.nameAndType index) := by
  refine (failsIn_get pool index).bind fun c => ?_
  split
  · exact (failsIn_utf8 pool _).bind fun _ => (failsIn_utf8 pool _).bind fun _ => failsIn_ok _
  · exact failsIn_error (.unexpectedConstant index .nameAndType)

theorem failsIn_methodRef : FailsIn DecodeFault.IsReference (pool.methodRef index) := by
  refine (failsIn_get pool index).bind fun c => ?_
  split
  · exact (failsIn_className pool _).bind fun _ => (failsIn_nameAndType pool _).bind fun _ => failsIn_ok _
  · exact failsIn_error (.unexpectedConstant index .methodRef)

theorem failsIn_invokeDynamic : FailsIn DecodeFault.IsReference (pool.invokeDynamic index) := by
  refine (failsIn_get pool index).bind fun c => ?_
  split
  · exact failsIn_nameAndType pool _
  · exact failsIn_error (.unexpectedConstant index .invokeDynamic)

end ConstantPool

theorem Instruction.failsIn_resolve (pool : ConstantPool) (kind : CallKind) (index : Nat) :
    FailsIn DecodeFault.IsReference (resolve pool kind index) := by
  unfold resolve
  split
  · exact (pool.failsIn_invokeDynamic index).bind fun _ =>
      (Descriptor.failsIn_returnType _).bind fun _ => failsIn_ok _
  · exact (pool.failsIn_methodRef index).bind fun _ => (Descriptor.failsIn_returnType _).bind fun _ => failsIn_ok _

/-! ## Where decoders stop -/

theorem Reader.take_eq_error_iff {ε : Type} {short : Shortfall → ε} {n o : Nat} {bs : Bytes} {e : ε} :
    take short n ⟨o, bs⟩ = .error e ↔ bs.length < n ∧ e = short ⟨o, n⟩ := by
  by_cases hn : n ≤ bs.length
  · simp [take, hn, Nat.not_lt.mpr hn]
  · simp [take, hn, Nat.lt_of_not_le hn, eq_comm (a := e)]

/-- The read begins among the bytes, which stand at the offset, and wants more than they have. -/
def Shortfall.Overruns (s : Shortfall) (o : Nat) (bs : Bytes) : Prop :=
  o ≤ s.offset ∧ s.offset ≤ o + bs.length ∧ o + bs.length < s.offset + s.wanted

theorem Shortfall.Overruns.after {s : Shortfall} {o : Nat} {first bs : Bytes} (h : s.Overruns (o + first.length) bs) :
    s.Overruns o (first ++ bs) := by
  unfold Shortfall.Overruns at h ⊢
  rw [List.length_append]
  omega

namespace Decoder

open Reader

variable {α β : Type} {p : Decoder α} {k : α → Decoder β} {F : Format α} {E E' : Nat → Bytes → DecodeFault → Prop}

/-- With which faults a decoder stops on which bytes. -/
structure Faults (p : Decoder α) (E : Nat → Bytes → DecodeFault → Prop) : Prop where
  short : ∀ {o : Nat} {bs : Bytes} {s : Shortfall}, p ⟨o, bs⟩ = .error (.truncated s) → s.Overruns o bs
  other : ∀ {o : Nat} {bs : Bytes} {f : DecodeFault}, (∀ s, f ≠ .truncated s) → (p ⟨o, bs⟩ = .error f ↔ E o bs f)

theorem Faults.congr (h : p.Faults E) (hE : ∀ o bs f, E o bs f ↔ E' o bs f) : p.Faults E' where
  short := h.short
  other hf := (h.other hf).trans (hE _ _ _)

/-- A decoder that never stops. -/
theorem faults_of_ok (h : ∀ c, ∃ r, p c = .ok r) : p.Faults fun _ _ _ => False := by
  have hnot {c : Cursor} {f : DecodeFault} : p c ≠ .error f := by
    obtain ⟨r, hr⟩ := h c
    simp [hr]
  exact ⟨fun hs => absurd hs hnot, fun _ => iff_false_intro hnot⟩

theorem faults_pure (a : α) : (pure a : Decoder α).Faults fun _ _ _ => False :=
  faults_of_ok fun c => ⟨(a, c), rfl⟩

theorem faults_position : Faults position fun _ _ _ => False :=
  faults_of_ok fun c => ⟨(c.offset, c), rfl⟩

theorem faults_lift {x : Except DecodeFault α} (hx : ∀ s, x ≠ .error (.truncated s)) :
    (liftM x : Decoder α).Faults fun _ _ f => x = .error f := by
  cases x with
  | ok a => exact (faults_pure a).congr fun _ _ _ => by simp
  | error e =>
      constructor
      · intro o bs s h
        cases h
        exact absurd rfl (hx s)
      · intro o bs f hf
        change Except.error e = Except.error f ↔ _
        simp

theorem faults_throw {e : DecodeFault} (he : ∀ s, e ≠ .truncated s) :
    (throw e : Decoder α).Faults fun _ _ f => f = e :=
  (faults_lift (x := (.error e : Except DecodeFault α)) (by simpa using he)).congr fun _ _ _ => by simp [eq_comm]

theorem faults_bytes (n : Nat) : (bytes n).Faults fun _ _ _ => False := by
  constructor
  · intro o bs s h
    obtain ⟨hshort, hs⟩ := take_eq_error_iff.mp h
    cases hs
    exact ⟨Nat.le_refl _, Nat.le_add_right _ _, Nat.add_lt_add_left hshort o⟩
  · intro o bs f hf
    exact ⟨fun h => hf _ (take_eq_error_iff.mp h).2, False.elim⟩

/-- A step that can only run out of bytes, and then a second one. -/
theorem Faults.after {G : α → Nat → Bytes → DecodeFault → Prop} (hp : p.Faults fun _ _ _ => False) (hF : p.Follows F)
    (hk : ∀ a, (k a).Faults (G a)) :
    (p >>= k).Faults fun o bs f => ∃ a first rest, bs = first ++ rest ∧ F o first a ∧
      G a (o + first.length) rest f := by
  constructor
  · intro o bs s h
    rcases bind_eq_error.mp h with hp' | ⟨a, ⟨o', rest⟩, hpa, hka⟩
    · exact hp.short hp'
    · obtain ⟨first, rfl, rfl, -⟩ := (hF _ _ _ _ _).mp hpa
      exact ((hk a).short hka).after
  · intro o bs f hf
    rw [bind_eq_error, hp.other hf, false_or]
    constructor
    · rintro ⟨a, ⟨o', rest⟩, hpa, hka⟩
      obtain ⟨first, rfl, rfl, ha⟩ := (hF _ _ _ _ _).mp hpa
      exact ⟨a, first, rest, rfl, ha, ((hk a).other hf).mp hka⟩
    · rintro ⟨a, first, rest, rfl, ha, hG⟩
      exact ⟨a, _, hF.run ha rest, ((hk a).other hf).mpr hG⟩

theorem Faults.map (hp : p.Faults E) (g : α → β) : (p >>= fun a => pure (g a)).Faults E := by
  have hsame {c : Cursor} {f : DecodeFault} : (p >>= fun a => pure (g a)) c = .error f ↔ p c = .error f := by
    rw [bind_eq_error, or_iff_left]
    rintro ⟨a, c', -, h⟩
    cases h
  exact ⟨fun h => hp.short (hsame.mp h), fun hf => hsame.trans (hp.other hf)⟩

/-- A check in front of a step. -/
theorem Faults.unless {c : Prop} [Decidable c] {e : DecodeFault} {k : Unit → Decoder α} (he : ∀ s, e ≠ .truncated s)
    (h : (k ()).Faults E) :
    (if c then throw e >>= k else k ()).Faults fun o bs f => if c then f = e else E o bs f := by
  by_cases hc : c
  · simp only [hc, ↓reduceIte]
    exact faults_throw (α := α) he
  · simpa only [hc, ↓reduceIte] using h

theorem faults_skip (n : Nat) : (skip n).Faults fun _ _ _ => False := (faults_bytes n).map _

theorem faults_number (n : Nat) : (number n).Faults fun _ _ _ => False := (faults_bytes n).map _

theorem faults_i32 : i32.Faults fun _ _ _ => False := (faults_number 4).map _

theorem faults_skipped (n : Nat) (a : α) : (do skip n; return a : Decoder α).Faults fun _ _ _ => False :=
  (faults_skip n).map _

end Decoder

namespace Instruction

open Reader Decoder

/-! ## Flawed instructions -/

/-- A switch whose range is empty or whose table does not fit in the bytes that are left, though everything before the
table does. -/
inductive MalformedSwitch (start : Nat) : Bytes → Prop
  | table {padding target low high rest : Bytes} (hpadding : IsPadding start padding) (htarget : target.length = 4)
      (hlow : low.length = 4) (hhigh : high.length = 4)
      (h : signed32 high.bigEndian < signed32 low.bigEndian ∨
        (rest.length : Int) < 4 * (signed32 high.bigEndian - signed32 low.bigEndian + 1)) :
      MalformedSwitch start (0xAA :: (padding ++ target ++ low ++ high ++ rest))
  | lookup {padding target count rest : Bytes} (hpadding : IsPadding start padding) (htarget : target.length = 4)
      (hcount : count.length = 4)
      (h : signed32 count.bigEndian < 0 ∨ (rest.length : Int) < 8 * signed32 count.bigEndian) :
      MalformedSwitch start (0xAB :: (padding ++ target ++ count ++ rest))

/-- The faults of the instruction that starts at `start`, other than that its bytes run out. -/
inductive Flaw (pool : ConstantPool) (start : Nat) : Bytes → DecodeFault → Prop
  | invalidOpcode {opcode : UInt8} {rest : Bytes} (h : 0xCA ≤ opcode) :
      Flaw pool start (opcode :: rest) (.invalidOpcode start opcode)
  | malformedSwitch {bs : Bytes} (h : MalformedSwitch start bs) : Flaw pool start bs (.malformedSwitch start)
  | unresolved {kind : CallKind} {index unused rest : Bytes} {f : DecodeFault} (hindex : index.length = 2)
      (hunused : unused.length = unusedBytes kind) (h : resolve pool kind index.bigEndian = .error f) :
      Flaw pool start (callOpcode kind :: (index ++ unused ++ rest)) f

theorem faults_align : align.Faults fun _ _ _ => False :=
  (faults_position.after follows_position fun o => faults_skip ((4 - o % 4) % 4)).congr fun _ _ _ => by simp

theorem faults_skipTable (start size : Nat) :
    (skipTable start size).Faults fun _ bs f => bs.length < size ∧ f = .malformedSwitch start := by
  have htake : Faults (take (fun _ => .malformedSwitch start) size)
      fun _ bs f => bs.length < size ∧ f = .malformedSwitch start := by
    refine ⟨fun h => ?_, fun _ => take_eq_error_iff⟩
    have hs := (take_eq_error_iff.mp h).2
    cases hs
  exact htake.map fun _ => ()

theorem faults_readCall (pool : ConstantPool) (kind : CallKind) :
    (readCall pool kind).Faults fun _ bs f => ∃ index unused rest : Bytes, bs = index ++ unused ++ rest ∧
      index.length = 2 ∧ unused.length = unusedBytes kind ∧ resolve pool kind index.bigEndian = .error f := by
  have hnot (index : Nat) (s : Shortfall) : resolve pool kind index ≠ .error (.truncated s) := by
    intro h
    cases failsIn_resolve pool kind index _ h
  refine ((faults_number 2).after (follows_number 2) fun index =>
    (faults_skip (unusedBytes kind)).after (follows_skip _) fun _ =>
      (faults_lift (hnot index)).map Instruction.call).congr fun o bs f => ⟨?_, ?_⟩
  · rintro ⟨_, index, _, rfl, hindex, _, unused, rest, rfl, hunused, h⟩
    obtain ⟨hlen, rfl⟩ := Bytes.bigEndian_eq_iff.mpr hindex
    exact ⟨index, unused, rest, by simp, hlen, hunused, h⟩
  · rintro ⟨index, unused, rest, rfl, hlen, hunused, h⟩
    exact ⟨_, index, unused ++ rest, by simp, Bytes.bigEndian_eq_iff.mp ⟨hlen, rfl⟩, (), unused, rest, rfl, hunused, h⟩

/-- A check of the range and then the table. -/
theorem faults_checkedTable {start size : Nat} {c : Prop} [Decidable c] {x : Instruction} :
    (do
      if c then throw (.malformedSwitch start)
      skipTable start size
      return x : Decoder Instruction).Faults
        fun _ bs f => f = .malformedSwitch start ∧ (c ∨ bs.length < size) := by
  refine (((faults_skipTable start size).map fun _ => x).unless (e := .malformedSwitch start) (by simp)).congr
    fun o bs f => ?_
  by_cases hc : c
  · simp [hc]
  · simp [hc, and_comm]

theorem faults_readTableSwitch (start : Nat) :
    (readTableSwitch start).Faults fun o bs f => ∃ padding target low high rest : Bytes,
      bs = padding ++ target ++ low ++ high ++ rest ∧ padding.length = (4 - o % 4) % 4 ∧ target.length = 4 ∧
        low.length = 4 ∧ high.length = 4 ∧ f = .malformedSwitch start ∧
          (signed32 high.bigEndian < signed32 low.bigEndian ∨
            rest.length < 4 * (signed32 high.bigEndian - signed32 low.bigEndian + 1).toNat) := by
  refine (faults_align.after follows_align fun _ => (faults_skip 4).after (follows_skip 4) fun _ =>
    faults_i32.after follows_i32 fun low => faults_i32.after follows_i32 fun high =>
      faults_checkedTable).congr fun o bs f => ⟨?_, ?_⟩
  · rintro ⟨_, padding, _, rfl, hpadding, _, target, _, rfl, htarget, _, low, _, rfl, ⟨hlow, rfl⟩, _, high, rest, rfl,
      ⟨hhigh, rfl⟩, hf, h⟩
    exact ⟨padding, target, low, high, rest, by simp, hpadding, htarget, hlow, hhigh, hf, h⟩
  · rintro ⟨padding, target, low, high, rest, rfl, hpadding, htarget, hlow, hhigh, hf, h⟩
    exact ⟨(), padding, target ++ (low ++ (high ++ rest)), by simp, hpadding, (), target, _, rfl, htarget, _, low, _, rfl,
      ⟨hlow, rfl⟩, _, high, rest, rfl, ⟨hhigh, rfl⟩, hf, h⟩

theorem faults_readLookupSwitch (start : Nat) :
    (readLookupSwitch start).Faults fun o bs f => ∃ padding target count rest : Bytes,
      bs = padding ++ target ++ count ++ rest ∧ padding.length = (4 - o % 4) % 4 ∧ target.length = 4 ∧
        count.length = 4 ∧ f = .malformedSwitch start ∧
          (signed32 count.bigEndian < 0 ∨ rest.length < 8 * (signed32 count.bigEndian).toNat) := by
  refine (faults_align.after follows_align fun _ => (faults_skip 4).after (follows_skip 4) fun _ =>
    faults_i32.after follows_i32 fun count => faults_checkedTable).congr fun o bs f => ⟨?_, ?_⟩
  · rintro ⟨_, padding, _, rfl, hpadding, _, target, _, rfl, htarget, _, count, rest, rfl, ⟨hcount, rfl⟩, hf, h⟩
    exact ⟨padding, target, count, rest, by simp, hpadding, htarget, hcount, hf, h⟩
  · rintro ⟨padding, target, count, rest, rfl, hpadding, htarget, hcount, hf, h⟩
    exact ⟨(), padding, target ++ (count ++ rest), by simp, hpadding, (), target, _, rfl, htarget, _, count, rest, rfl,
      ⟨hcount, rfl⟩, hf, h⟩

theorem faults_wide (opcode : UInt8) :
    (do let widened ← u8; skip (if widened = increment then 4 else 2); return .other opcode :
        Decoder Instruction).Faults fun _ _ _ => False :=
  ((faults_number 1).after follows_u8 fun _ => faults_skipped _ _).congr fun _ _ _ => by simp

/-! ## Whole instructions -/

theorem form?_eq_none_iff : ∀ opcode, form? opcode = none ↔ 0xCA ≤ opcode := by
  apply Bytes.forall_byte
  decide +kernel

theorem flaw_of_readOperands {pool : ConstantPool} {start : Nat} {opcode : UInt8} {bs : Bytes} {f : DecodeFault}
    (hf : ∀ s, f ≠ .truncated s) (h : readOperands pool start opcode ⟨start + 1, bs⟩ = .error f) :
    Flaw pool start (opcode :: bs) f := by
  unfold readOperands at h
  cases hform : form? opcode with
  | none =>
      rw [hform] at h
      cases h
      exact .invalidOpcode ((form?_eq_none_iff opcode).mp hform)
  | some form =>
      rw [hform] at h
      have hopcode := form?_eq_some_iff.mp hform
      cases form with
      | plain width => exact (((faults_skipped width _).other hf).mp h).elim
      | monitorEnter => cases h
      | call kind =>
          obtain ⟨index, unused, rest, rfl, hindex, hunused, hcall⟩ := ((faults_readCall pool kind).other hf).mp h
          cases hopcode
          exact .unresolved hindex hunused hcall
      | branch => exact (((faults_skipped 2 _).other hf).mp h).elim
      | tableSwitch =>
          obtain ⟨padding, target, low, high, rest, rfl, hpadding, htarget, hlow, hhigh, rfl, hbad⟩ :=
            ((faults_readTableSwitch start).other hf).mp h
          cases hopcode
          exact .malformedSwitch (.table (isPadding_iff.mpr hpadding) htarget hlow hhigh (by omega))
      | lookupSwitch =>
          obtain ⟨padding, target, count, rest, rfl, hpadding, htarget, hcount, rfl, hbad⟩ :=
            ((faults_readLookupSwitch start).other hf).mp h
          cases hopcode
          exact .malformedSwitch (.lookup (isPadding_iff.mpr hpadding) htarget hcount (by omega))
      | wide => exact (((faults_wide opcode).other hf).mp h).elim

theorem Flaw.readOperands {pool : ConstantPool} {start : Nat} {opcode : UInt8} {bs : Bytes} {f : DecodeFault}
    (h : Flaw pool start (opcode :: bs) f) : readOperands pool start opcode ⟨start + 1, bs⟩ = .error f := by
  unfold Instruction.readOperands
  cases h with
  | invalidOpcode hopcode =>
      rw [(form?_eq_none_iff opcode).mpr hopcode]
      rfl
  | malformedSwitch hswitch =>
      have hf (s : Shortfall) : DecodeFault.malformedSwitch start ≠ .truncated s := by simp
      cases hswitch with
      | table hpadding htarget hlow hhigh hbad =>
          exact ((faults_readTableSwitch start).other hf).mpr
            ⟨_, _, _, _, _, rfl, isPadding_iff.mp hpadding, htarget, hlow, hhigh, rfl, by omega⟩
      | lookup hpadding htarget hcount hbad =>
          exact ((faults_readLookupSwitch start).other hf).mpr
            ⟨_, _, _, _, rfl, isPadding_iff.mp hpadding, htarget, hcount, rfl, by omega⟩
  | @unresolved kind index unused rest f hindex hunused hcall =>
      have hf (s : Shortfall) : f ≠ .truncated s := by
        rintro rfl
        cases failsIn_resolve pool kind _ _ hcall
      rw [form?_eq_some_iff.mpr (show (Form.call kind).Has (callOpcode kind) from rfl)]
      exact ((faults_readCall pool kind).other hf).mpr ⟨index, unused, rest, rfl, hindex, hunused, hcall⟩

theorem overruns_of_readOperands {pool : ConstantPool} {start : Nat} {opcode : UInt8} {bs : Bytes} {s : Shortfall}
    (h : readOperands pool start opcode ⟨start + 1, bs⟩ = .error (.truncated s)) : s.Overruns (start + 1) bs := by
  unfold readOperands at h
  cases hform : form? opcode with
  | none =>
      rw [hform] at h
      cases h
  | some form =>
      rw [hform] at h
      cases form with
      | plain width => exact (faults_skipped width _).short h
      | monitorEnter => cases h
      | call kind => exact (faults_readCall pool kind).short h
      | branch => exact (faults_skipped 2 _).short h
      | tableSwitch => exact (faults_readTableSwitch start).short h
      | lookupSwitch => exact (faults_readLookupSwitch start).short h
      | wide => exact (faults_wide opcode).short h

section

variable {pool : ConstantPool} {start : Nat} {opcode : UInt8} {bs : Bytes} {f : DecodeFault}

theorem readOperands_fault_cases (h : readOperands pool start opcode ⟨start + 1, bs⟩ = .error f) :
    (∃ s, f = .truncated s) ∨ Flaw pool start (opcode :: bs) f := by
  by_cases hf : ∃ s, f = .truncated s
  · exact .inl hf
  · exact .inr (flaw_of_readOperands (fun s hs => hf ⟨s, hs⟩) h)

theorem invalidOpcode_of_readOperands {o : Nat} {b : UInt8}
    (h : readOperands pool start opcode ⟨start + 1, bs⟩ = .error (.invalidOpcode o b)) :
    0xCA ≤ opcode ∧ o = start ∧ b = opcode := by
  cases flaw_of_readOperands (by simp) h with
  | invalidOpcode hopcode => exact ⟨hopcode, rfl, rfl⟩
  | unresolved _ _ hcall => cases failsIn_resolve pool _ _ _ hcall

theorem malformedSwitch_of_readOperands {o : Nat}
    (h : readOperands pool start opcode ⟨start + 1, bs⟩ = .error (.malformedSwitch o)) :
    MalformedSwitch start (opcode :: bs) ∧ o = start := by
  cases flaw_of_readOperands (by simp) h with
  | malformedSwitch hswitch => exact ⟨hswitch, rfl⟩
  | unresolved _ _ hcall => cases failsIn_resolve pool _ _ _ hcall

theorem exists_invalidOpcode_iff (h : readOperands pool start opcode ⟨start + 1, bs⟩ = .error f) :
    (∃ o b, f = .invalidOpcode o b) ↔ 0xCA ≤ opcode := by
  constructor
  · rintro ⟨o, b, rfl⟩
    exact (invalidOpcode_of_readOperands h).1
  · intro hopcode
    have hflaw : Flaw pool start (opcode :: bs) (.invalidOpcode start opcode) := .invalidOpcode hopcode
    cases h.symm.trans hflaw.readOperands
    exact ⟨start, opcode, rfl⟩

theorem exists_malformedSwitch_iff (h : readOperands pool start opcode ⟨start + 1, bs⟩ = .error f) :
    (∃ o, f = .malformedSwitch o) ↔ MalformedSwitch start (opcode :: bs) := by
  constructor
  · rintro ⟨o, rfl⟩
    exact (malformedSwitch_of_readOperands h).1
  · intro hswitch
    have hflaw : Flaw pool start (opcode :: bs) (.malformedSwitch start) := .malformedSwitch hswitch
    cases h.symm.trans hflaw.readOperands
    exact ⟨start, rfl⟩

theorem exists_call_of_reference (hf : f.IsReference)
    (h : readOperands pool start opcode ⟨start + 1, bs⟩ = .error f) :
    ∃ kind, opcode = callOpcode kind ∧ 2 + unusedBytes kind ≤ bs.length ∧
      resolve pool kind (Bytes.bigEndian (bs.take 2)) = .error f := by
  have hnot (s : Shortfall) : f ≠ .truncated s := by
    rintro rfl
    cases hf
  cases flaw_of_readOperands hnot h with
  | invalidOpcode _ => cases hf
  | malformedSwitch _ => cases hf
  | @unresolved kind index unused rest f hindex hunused hcall =>
      refine ⟨kind, rfl, ?_, ?_⟩
      · simp only [List.length_append]
        omega
      · rwa [List.append_assoc, List.take_left' hindex]

end

/-! ## Code arrays -/

theorem decodeAfter_nil {pool : ConstantPool} {read : List Instruction} {o : Nat} :
    decodeAfter pool read ⟨o, []⟩ = .ok read.reverse := by
  rw [decodeAfter]

theorem decodeAfter_cons {pool : ConstantPool} {read : List Instruction} {o : Nat} {opcode : UInt8} {bs : Bytes} :
    decodeAfter pool read ⟨o, opcode :: bs⟩ =
      (readOperands pool o opcode ⟨o + 1, bs⟩ >>= fun r => decodeAfter pool (r.1 :: read) r.2) := by
  rw [decodeAfter]
  simp only
  split
  · rename_i hfault
    rw [hfault]
    rfl
  · rename_i hok
    rw [hok]
    rfl

/-- Instructions at the front of the code are read first. -/
theorem decodeAfter_append {pool : ConstantPool} {o : Nat} {before : Bytes} {xs : List Instruction}
    (h : Format.Series (Encoding pool) o before xs) (read : List Instruction) (bs : Bytes) :
    decodeAfter pool read ⟨o, before ++ bs⟩ = decodeAfter pool (xs.reverse ++ read) ⟨o + before.length, bs⟩ := by
  induction h generalizing read with
  | nil => rfl
  | @cons o first second x xs hx _ ih =>
      cases first with
      | nil => cases hx
      | cons opcode operands =>
          rw [List.append_assoc, List.cons_append, decodeAfter_cons, readOperands_of_encoding hx]
          have hoffset : o + 1 + operands.length = o + (opcode :: operands).length := by
            rw [List.length_cons]
            omega
          change decodeAfter pool (x :: read) ⟨o + 1 + operands.length, second ++ bs⟩ = _
          rw [hoffset, ih, List.reverse_cons, List.append_assoc, List.length_append, ← Nat.add_assoc]
          rfl

/-- A fault of a code array is the fault of an instruction in it that has only instructions before it. -/
theorem decodeAfter_eq_error_iff {pool : ConstantPool} {read : List Instruction} {c : Cursor} {f : DecodeFault} :
    decodeAfter pool read c = .error f ↔ ∃ before opcode after xs, c.rest = before ++ opcode :: after ∧
      Format.Series (Encoding pool) c.offset before xs ∧
        readOperands pool (c.offset + before.length) opcode ⟨c.offset + before.length + 1, after⟩ = .error f := by
  constructor
  · intro h
    fun_induction decodeAfter pool read c with
    | case1 read c hrest => cases h
    | case2 read c opcode rest hrest fault hfault =>
        cases h
        exact ⟨[], opcode, rest, [], hrest, .nil, hfault⟩
    | case3 read c opcode rest hrest x c' hx ih =>
        obtain ⟨before, opcode', after, xs, hsplit, hseries, hfault⟩ := ih h
        obtain ⟨o', rest'⟩ := c'
        obtain ⟨operands, rfl, rfl, henc⟩ := encoding_of_readOperands hx
        have hlen : c.offset + 1 + operands.length = c.offset + (opcode :: operands).length := by
          rw [List.length_cons]
          omega
        simp only [hlen] at hsplit hseries hfault
        refine ⟨opcode :: operands ++ before, opcode', after, x :: xs, ?_, .cons henc hseries, ?_⟩
        · rw [hrest, hsplit]
          simp
        · rwa [List.length_append, ← Nat.add_assoc]
  · rintro ⟨before, opcode, after, xs, hsplit, hseries, hfault⟩
    have hc : c = ⟨c.offset, before ++ opcode :: after⟩ := by rw [← hsplit]
    rw [hc, decodeAfter_append hseries, decodeAfter_cons, hfault]
    rfl

/-- No instruction begins where one is flawed or cut off, so no code array goes on from there. -/
theorem decode_ne_ok_of_fault {pool : ConstantPool} {before after more ys : Bytes} {opcode : UInt8}
    {xs : List Instruction} {f : DecodeFault} (hseries : Format.Series (Encoding pool) 0 before xs)
    (hafter : after = more ++ ys)
    (hfault : readOperands pool before.length opcode ⟨before.length + 1, after⟩ = .error f) (out : List Instruction) :
    decode pool (before ++ opcode :: more) ≠ .ok out := by
  intro h
  rw [decode, decodeAfter_append hseries, decodeAfter_eq_ok_iff] at h
  obtain ⟨zs, -, hrest⟩ := h
  obtain ⟨x, ⟨o', rest⟩, -, hx, -, -⟩ := series_cons_iff.mp hrest
  rw [Nat.zero_add] at hx
  obtain ⟨operands, rfl, -, henc⟩ := encoding_of_readOperands hx
  rw [hafter, List.append_assoc, readOperands_of_encoding henc] at hfault
  cases hfault

/-- Where code cannot be decoded, an instruction starts that is at fault. The bytes before it are the longest part at the
front of the code that can be decoded. Its opcode is reserved, it is a malformed switch, its bytes run out, or it is a
call of something that the constant pool does not tell. -/
theorem decode_fault_of_instruction (pool : ConstantPool) (code : Bytes) (f : DecodeFault)
    (h : decode pool code = .error f) :
    ∃ (k : Nat) (hk : k < code.length),
      (∃ xs, decode pool (code.take k) = .ok xs) ∧
      (∀ j, k < j → ∀ xs, decode pool (code.take j) ≠ .ok xs) ∧
      ((∃ offset opcode, f = .invalidOpcode offset opcode) ↔ 0xCA ≤ code[k]) ∧
      (∀ offset opcode, f = .invalidOpcode offset opcode → offset = k ∧ opcode = code[k]) ∧
      ((∃ offset, f = .malformedSwitch offset) ↔ MalformedSwitch k (code.drop k)) ∧
      (∀ offset, f = .malformedSwitch offset → offset = k) ∧
      (∀ offset wanted, f = .truncated ⟨offset, wanted⟩ →
        k < offset ∧ offset ≤ code.length ∧ code.length < offset + wanted) ∧
      (f.IsReference → ∃ kind, code[k] = callOpcode kind ∧ k + 1 + (2 + unusedBytes kind) ≤ code.length ∧
        resolve pool kind (Bytes.bigEndian ((code.drop (k + 1)).take 2)) = .error f) ∧
      ((∃ offset opcode, f = .invalidOpcode offset opcode) ∨ (∃ offset, f = .malformedSwitch offset) ∨
        (∃ s, f = .truncated s) ∨ f.IsReference) := by
  obtain ⟨before, opcode, after, xs, rfl, hseries, hfault⟩ := decodeAfter_eq_error_iff.mp h
  change Format.Series (Encoding pool) 0 before xs at hseries
  rw [Nat.zero_add] at hfault
  have hk : before.length < (before ++ opcode :: after).length := by simp
  have hget : (before ++ opcode :: after)[before.length] = opcode := by simp
  have hdrop : (before ++ opcode :: after).drop (before.length + 1) = after := by simp
  refine ⟨before.length, hk, ⟨xs, ?_⟩, fun j hj out => ?_, ?_, ?_, ?_, ?_, ?_, ?_, ?_⟩
  · rw [List.take_left]
    exact decodeAfter_eq_ok_iff.mpr ⟨xs, rfl, hseries⟩
  · obtain ⟨n, rfl⟩ : ∃ n, j = before.length + (n + 1) := ⟨j - before.length - 1, by omega⟩
    rw [List.take_length_add_append, List.take_succ_cons]
    exact decode_ne_ok_of_fault hseries (List.take_append_drop n after).symm hfault out
  · rw [hget, exists_invalidOpcode_iff hfault]
  · rintro o b rfl
    rw [hget]
    exact (invalidOpcode_of_readOperands hfault).2
  · rw [List.drop_left, exists_malformedSwitch_iff hfault]
  · rintro o rfl
    exact (malformedSwitch_of_readOperands hfault).2
  · rintro offset wanted rfl
    have hover := overruns_of_readOperands hfault
    simp only [Shortfall.Overruns] at hover
    rw [List.length_append, List.length_cons]
    omega
  · intro hf
    obtain ⟨kind, hkind, hlen, hcall⟩ := exists_call_of_reference hf hfault
    refine ⟨kind, hget.trans hkind, ?_, by rwa [hdrop]⟩
    rw [List.length_append, List.length_cons]
    omega
  · rcases readOperands_fault_cases hfault with hshort | hflaw
    · exact .inr (.inr (.inl hshort))
    · cases hflaw with
      | invalidOpcode _ => exact .inl ⟨_, _, rfl⟩
      | malformedSwitch _ => exact .inr (.inl ⟨_, rfl⟩)
      | unresolved _ _ hcall => exact .inr (.inr (.inr (failsIn_resolve pool _ _ _ hcall)))

/-- `nop`, and a `lookupswitch` that lacks the second half of its only pair. -/
def cutSwitch : Bytes := [0x00, 0xAB, 0, 0, 0, 0, 0, 0, 0, 0, 0, 1, 0, 0, 0, 0]

theorem decode_cutSwitch : decode .empty cutSwitch = .error (.malformedSwitch 1) := by
  have hnop : Format.Series (Encoding .empty) 0 [0x00] [.other 0x00] :=
    series_cons_iff.mpr ⟨.other 0x00, ⟨1, []⟩, [], by decide +kernel, rfl, .nil⟩
  exact decodeAfter_eq_error_iff.mpr ⟨[0x00], 0xAB, cutSwitch.drop 2, [.other 0x00], rfl, hnop, by decide +kernel⟩

theorem decode_fault_of_instruction_cutSwitch :
    decode .empty cutSwitch = .error (.malformedSwitch 1) ∧ (∃ xs, decode .empty (cutSwitch.take 1) = .ok xs) ∧
      (∀ j, 1 < j → ∀ xs, decode .empty (cutSwitch.take j) ≠ .ok xs) ∧ MalformedSwitch 1 (cutSwitch.drop 1) := by
  obtain ⟨k, hk, hbefore, hlongest, -, -, hswitch, hoffset, -⟩ := decode_fault_of_instruction _ _ _ decode_cutSwitch
  obtain rfl : 1 = k := hoffset 1 rfl
  exact ⟨decode_cutSwitch, hbefore, hlongest, hswitch.mp ⟨1, rfl⟩⟩

end Instruction

end MethodScout
