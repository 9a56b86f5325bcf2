import MethodScout.Proofs.PoolSlots

/-!
# References among constants

`PoolText`, `PoolClass`, `PoolMember`, `PoolMethod` and `PoolCallSite` say what following references among constants
comes to: a value, or the fault of the first reference that is broken. The pool that is read from the constants gives
just that.
-/

namespace MethodScout

def Constant.kind? : Constant → Option ConstantKind
  | utf8 _ => some .utf8
  | classRef _ => some .classRef
  | nameAndType .. => some .nameAndType
  | methodRef .. => some .methodRef
  | invokeDynamic _ => some .invokeDynamic
  | _ => none

namespace PoolEntry

/-- The kind that references to a constant want, if there are such references. -/
def kind? : PoolEntry → Option ConstantKind
  | utf8 .. => some .utf8
  | classRef _ => some .classRef
  | nameAndType .. => some .nameAndType
  | methodRef .. | interfaceMethodRef .. => some .methodRef
  | invokeDynamic .. => some .invokeDynamic
  | _ => none

theorem kind?_constant (e : PoolEntry) : e.constant.kind? = e.kind? := by
  cases e <;> rfl

/-- A reference to a method of a class or of an interface. -/
def IsMethod (e : PoolEntry) (owner member : UInt16) : Prop :=
  e = .methodRef owner member ∨ e = .interfaceMethodRef owner member

theorem IsMethod.kind? {e : PoolEntry} {c m : UInt16} (h : e.IsMethod c m) : e.kind? = some .methodRef := by
  rcases h with rfl | rfl <;> rfl

theorem IsMethod.constant {e : PoolEntry} {c m : UInt16} (h : e.IsMethod c m) :
    e.constant = .methodRef c.toNat m.toNat := by
  rcases h with rfl | rfl <;> rfl

theorem exists_isMethod {e : PoolEntry} (h : e.kind? = some .methodRef) : ∃ c m, e.IsMethod c m := by
  cases e with
  | methodRef c m => exact ⟨c, m, .inl rfl⟩
  | interfaceMethodRef c m => exact ⟨c, m, .inr rfl⟩
  | _ => simp [PoolEntry.kind?] at h

end PoolEntry

open PoolEntry

/-! ## What references come to -/

section

variable (es : List PoolEntry)

/-- A reference to a constant of a kind that leads nowhere, or to a constant of another kind. -/
inductive PoolBroken (kind : ConstantKind) (index : Nat) : DecodeFault → Prop
  | unusable (hnone : ∀ e, ¬At es index e) : PoolBroken kind index (.badConstantIndex index)
  | unexpected {e : PoolEntry} (hat : At es index e) (hkind : e.kind? ≠ some kind) :
      PoolBroken kind index (.unexpectedConstant index kind)

inductive PoolText (index : Nat) : Except DecodeFault String → Prop
  | broken {fault : DecodeFault} (h : PoolBroken es .utf8 index fault) : PoolText index (.error fault)
  | found {text : Bytes} {short : text.length < 65536} (hat : At es index (.utf8 text short)) :
      PoolText index (.ok (Text.ModifiedUtf8.decode text))

inductive PoolClass (index : Nat) : Except DecodeFault String → Prop
  | broken {fault : DecodeFault} (h : PoolBroken es .classRef index fault) : PoolClass index (.error fault)
  | name {name : UInt16} {r : Except DecodeFault String} (hat : At es index (.classRef name))
      (hname : PoolText es name.toNat r) : PoolClass index r

/-- The name and the descriptor of a member, in this order. -/
inductive PoolMember (index : Nat) : Except DecodeFault (String × String) → Prop
  | broken {fault : DecodeFault} (h : PoolBroken es .nameAndType index fault) : PoolMember index (.error fault)
  | noName {n d : UInt16} {fault : DecodeFault} (hat : At es index (.nameAndType n d))
      (hname : PoolText es n.toNat (.error fault)) : PoolMember index (.error fault)
  | noDescriptor {n d : UInt16} {name : String} {fault : DecodeFault} (hat : At es index (.nameAndType n d))
      (hname : PoolText es n.toNat (.ok name)) (hdescriptor : PoolText es d.toNat (.error fault)) :
      PoolMember index (.error fault)
  | found {n d : UInt16} {name descriptor : String} (hat : At es index (.nameAndType n d))
      (hname : PoolText es n.toNat (.ok name)) (hdescriptor : PoolText es d.toNat (.ok descriptor)) :
      PoolMember index (.ok (name, descriptor))

/-- The owner of a method and then its name and descriptor. -/
inductive PoolMethod (index : Nat) : Except DecodeFault (String × String × String) → Prop
  | broken {fault : DecodeFault} (h : PoolBroken es .methodRef index fault) : PoolMethod index (.error fault)
  | noOwner {e : PoolEntry} {c m : UInt16} {fault : DecodeFault} (hat : At es index e)
      (he : e.IsMethod c m) (howner : PoolClass es c.toNat (.error fault)) :
      PoolMethod index (.error fault)
  | noMember {e : PoolEntry} {c m : UInt16} {owner : String} {fault : DecodeFault} (hat : At es index e)
      (he : e.IsMethod c m) (howner : PoolClass es c.toNat (.ok owner))
      (hmember : PoolMember es m.toNat (.error fault)) : PoolMethod index (.error fault)
  | found {e : PoolEntry} {c m : UInt16} {owner : String} {member : String × String} (hat : At es index e)
      (he : e.IsMethod c m) (howner : PoolClass es c.toNat (.ok owner))
      (hmember : PoolMember es m.toNat (.ok member)) : PoolMethod index (.ok (owner, member))

inductive PoolCallSite (index : Nat) : Except DecodeFault (String × String) → Prop
  | broken {fault : DecodeFault} (h : PoolBroken es .invokeDynamic index fault) : PoolCallSite index (.error fault)
  | member {bootstrap m : UInt16} {r : Except DecodeFault (String × String)}
      (hat : At es index (.invokeDynamic bootstrap m)) (hmember : PoolMember es m.toNat r) : PoolCallSite index r

end

/-! ## The pool follows references -/

namespace ConstantPool

variable {es : List PoolEntry} {count : Nat}

/-- A step that refuses all constants but those of one kind comes to a broken reference or goes on from a constant of
that kind. -/
theorem get_bind_eq_iff {α : Type} {index : Nat} {k : Constant → Except DecodeFault α} {r : Except DecodeFault α}
    (h : Fills es count) (kind : ConstantKind)
    (hk : ∀ c, c.kind? ≠ some kind → k c = .error (.unexpectedConstant index kind)) :
    ((ofEntries es count).get index >>= k) = r ↔
      (∃ fault, PoolBroken es kind index fault ∧ .error fault = r) ∨
        ∃ e, At es index e ∧ e.kind? = some kind ∧ k e.constant = r := by
  have hstep : ∀ {e}, At es index e → ((ofEntries es count).get index >>= k) = k e.constant := by
    intro e hat
    rw [get_of_at h hat]
    rfl
  refine ⟨fun hr => ?_, ?_⟩
  · by_cases hat : ∃ e, At es index e
    · obtain ⟨e, hat⟩ := hat
      rw [hstep hat] at hr
      by_cases hkind : e.kind? = some kind
      · exact .inr ⟨e, hat, hkind, hr⟩
      · exact .inl ⟨_, .unexpected hat hkind, by rw [← hr, hk _ (by rwa [kind?_constant])]⟩
    · have hnone : ∀ e, ¬At es index e := fun e he => hat ⟨e, he⟩
      rw [get_of_not_at h hnone] at hr
      exact .inl ⟨_, .unusable hnone, hr⟩
  · rintro (⟨fault, hbroken, rfl⟩ | ⟨e, hat, -, hr⟩)
    · cases hbroken with
      | unusable hnone => rw [get_of_not_at h hnone]; rfl
      | unexpected hat hkind => rw [hstep hat, hk _ (by rwa [kind?_constant])]
    · rw [hstep hat, hr]

theorem utf8_eq_iff (h : Fills es count) {index : Nat} {r : Except DecodeFault String} :
    (ofEntries es count).utf8 index = r ↔ PoolText es index r := by
  rw [utf8, get_bind_eq_iff h .utf8 fun c hc => by cases c <;> simp [Constant.kind?] at hc <;> rfl]
  refine ⟨?_, fun hr => ?_⟩
  · rintro (⟨fault, hbroken, rfl⟩ | ⟨e, hat, he, rfl⟩)
    · exact .broken hbroken
    · cases e with
      | utf8 text short => exact .found hat
      | _ => simp [PoolEntry.kind?] at he
  · cases hr with
    | broken hbroken => exact .inl ⟨_, hbroken, rfl⟩
    | found hat => exact .inr ⟨_, hat, rfl, rfl⟩

theorem className_eq_iff (h : Fills es count) {index : Nat} {r : Except DecodeFault String} :
    (ofEntries es count).className index = r ↔ PoolClass es index r := by
  rw [className, get_bind_eq_iff h .classRef fun c hc => by cases c <;> simp [Constant.kind?] at hc <;> rfl]
  refine ⟨?_, fun hr => ?_⟩
  · rintro (⟨fault, hbroken, rfl⟩ | ⟨e, hat, he, hr⟩)
    · exact .broken hbroken
    · cases e with
      | classRef name => exact .name hat ((utf8_eq_iff h).mp hr)
      | _ => simp [PoolEntry.kind?] at he
  · cases hr with
    | broken hbroken => exact .inl ⟨_, hbroken, rfl⟩
    | name hat hname => exact .inr ⟨_, hat, rfl, (utf8_eq_iff h).mpr hname⟩

theorem pair_eq_iff {α β : Type} {x : Except DecodeFault α} {y : Except DecodeFault β}
    {r : Except DecodeFault (α × β)} :
    (do return (← x, ← y) : Except DecodeFault (α × β)) = r ↔
      (∃ fault, x = .error fault ∧ .error fault = r) ∨
        (∃ a fault, x = .ok a ∧ y = .error fault ∧ .error fault = r) ∨
          ∃ a b, x = .ok a ∧ y = .ok b ∧ .ok (a, b) = r := by
  cases x with
  | error fault => simp [bind, Except.bind]
  | ok a => cases y <;> simp [bind, Except.bind, pure, Except.pure]

theorem nameAndType_eq_iff (h : Fills es count) {index : Nat} {r : Except DecodeFault (String × String)} :
    (ofEntries es count).nameAndType index = r ↔ PoolMember es index r := by
  rw [nameAndType, get_bind_eq_iff h .nameAndType fun c hc => by cases c <;> simp [Constant.kind?] at hc <;> rfl]
  refine ⟨?_, fun hr => ?_⟩
  · rintro (⟨fault, hbroken, rfl⟩ | ⟨e, hat, he, hr⟩)
    · exact .broken hbroken
    · cases e with
      | nameAndType n d =>
          rcases pair_eq_iff.mp hr with ⟨fault, hn, rfl⟩ | ⟨name, fault, hn, hd, rfl⟩ | ⟨name, descriptor, hn, hd, rfl⟩
          · exact .noName hat ((utf8_eq_iff h).mp hn)
          · exact .noDescriptor hat ((utf8_eq_iff h).mp hn) ((utf8_eq_iff h).mp hd)
          · exact .found hat ((utf8_eq_iff h).mp hn) ((utf8_eq_iff h).mp hd)
      | _ => simp [PoolEntry.kind?] at he
  · cases hr with
    | broken hbroken => exact .inl ⟨_, hbroken, rfl⟩
    | noName hat hn => exact .inr ⟨_, hat, rfl, pair_eq_iff.mpr (.inl ⟨_, (utf8_eq_iff h).mpr hn, rfl⟩)⟩
    | noDescriptor hat hn hd =>
        exact .inr ⟨_, hat, rfl,
          pair_eq_iff.mpr (.inr (.inl ⟨_, _, (utf8_eq_iff h).mpr hn, (utf8_eq_iff h).mpr hd, rfl⟩))⟩
    | found hat hn hd =>
        exact .inr ⟨_, hat, rfl,
          pair_eq_iff.mpr (.inr (.inr ⟨_, _, (utf8_eq_iff h).mpr hn, (utf8_eq_iff h).mpr hd, rfl⟩))⟩

theorem methodRef_eq_iff (h : Fills es count) {index : Nat} {r : Except DecodeFault (String × String × String)} :
    (ofEntries es count).methodRef index = r ↔ PoolMethod es index r := by
  rw [methodRef, get_bind_eq_iff h .methodRef fun c hc => by cases c <;> simp [Constant.kind?] at hc <;> rfl]
  refine ⟨?_, fun hr => ?_⟩
  · rintro (⟨fault, hbroken, rfl⟩ | ⟨e, hat, hkind, hr⟩)
    · exact .broken hbroken
    · obtain ⟨c, m, he⟩ := exists_isMethod hkind
      rw [he.constant] at hr
      rcases pair_eq_iff.mp hr with ⟨fault, ho, rfl⟩ | ⟨owner, fault, ho, hm, rfl⟩ | ⟨owner, member, ho, hm, rfl⟩
      · exact .noOwner hat he ((className_eq_iff h).mp ho)
      · exact .noMember hat he ((className_eq_iff h).mp ho) ((nameAndType_eq_iff h).mp hm)
      · exact .found hat he ((className_eq_iff h).mp ho) ((nameAndType_eq_iff h).mp hm)
  · cases hr with
    | broken hbroken => exact .inl ⟨_, hbroken, rfl⟩
    | noOwner hat he ho =>
        exact .inr ⟨_, hat, he.kind?, he.constant ▸ pair_eq_iff.mpr (.inl ⟨_, (className_eq_iff h).mpr ho, rfl⟩)⟩
    | noMember hat he ho hm =>
        exact .inr ⟨_, hat, he.kind?, he.constant ▸
          pair_eq_iff.mpr (.inr (.inl ⟨_, _, (className_eq_iff h).mpr ho, (nameAndType_eq_iff h).mpr hm, rfl⟩))⟩
    | found hat he ho hm =>
        exact .inr ⟨_, hat, he.kind?, he.constant ▸
          pair_eq_iff.mpr (.inr (.inr ⟨_, _, (className_eq_iff h).mpr ho, (nameAndType_eq_iff h).mpr hm, rfl⟩))⟩

theorem invokeDynamic_eq_iff (h : Fills es count) {index : Nat} {r : Except DecodeFault (String × String)} :
    (ofEntries es count).invokeDynamic index = r ↔ PoolCallSite es index r := by
  rw [invokeDynamic, get_bind_eq_iff h .invokeDynamic fun c hc => by cases c <;> simp [Constant.kind?] at hc <;> rfl]
  refine ⟨?_, fun hr => ?_⟩
  · rintro (⟨fault, hbroken, rfl⟩ | ⟨e, hat, he, hr⟩)
    · exact .broken hbroken
    · cases e with
      | invokeDynamic bootstrap m => exact .member hat ((nameAndType_eq_iff h).mp hr)
      | _ => simp [PoolEntry.kind?] at he
  · cases hr with
    | broken hbroken => exact .inl ⟨_, hbroken, rfl⟩
    | member hat hm => exact .inr ⟨_, hat, rfl, (nameAndType_eq_iff h).mpr hm⟩

/-- Constants that fill the declared slots are read to their end, whatever follows. The pool that they give answers each
question as following references through the slots does; no constant is found at index 0, at the second slot of a long
or double and from the declared count on. -/
theorem read_resolves_by_slot (es : List PoolEntry) (count : UInt16) (h : Fills es count.toNat) (o : Nat)
    (rest : Bytes) :
    ∃ pool, read ⟨o, Bytes.word 2 count.toNat ++ es.flatMap encode ++ rest⟩ =
        .ok (pool, ⟨o + (2 + (es.flatMap encode).length), rest⟩) ∧
      (∀ index,
        (∀ r, pool.utf8 index = r ↔ PoolText es index r) ∧
        (∀ r, pool.className index = r ↔ PoolClass es index r) ∧
        (∀ r, pool.methodRef index = r ↔ PoolMethod es index r) ∧
        (∀ r, pool.invokeDynamic index = r ↔ PoolCallSite es index r)) ∧
      ∀ index, (∀ e, ¬At es index e) ↔ index = 0 ∨
        (∃ (j : Nat) (e : PoolEntry), es[j]? = some e ∧ e.isWide = true ∧ index = slotOf es j + 1) ∨
          max count.toNat 1 ≤ index := by
  refine ⟨ofEntries es count.toNat, ?_, fun index => ?_, fun index => h.not_at_iff⟩
  · have hrun := follows_read.run (o := o) ⟨count, es, h, rfl, rfl⟩ rest
    rwa [List.length_append, Bytes.length_word] at hrun
  · exact ⟨fun r => utf8_eq_iff h, fun r => className_eq_iff h, fun r => methodRef_eq_iff h,
      fun r => invokeDynamic_eq_iff h⟩

/-- A text between a long and a double that has the last declared slot. -/
theorem read_resolves_by_slot_between_wide :
    Fills [.long 42, .utf8 [120] (by decide), .double 7] 5 ∧
      ∃ pool, read ⟨0, [0, 5, 5, 0, 0, 0, 0, 0, 0, 0, 42, 1, 0, 1, 120, 6, 0, 0, 0, 0, 0, 0, 0, 7, 0xCA]⟩ =
          .ok (pool, ⟨24, [0xCA]⟩) ∧
        pool.utf8 3 = .ok (Text.ModifiedUtf8.decode [120]) ∧
        pool.utf8 2 = .error (.badConstantIndex 2) ∧
        pool.className 5 = .error (.badConstantIndex 5) ∧
        pool.methodRef 4 = .error (.unexpectedConstant 4 .methodRef) := by
  have h : Fills [.long 42, .utf8 [120] (by decide), .double 7] 5 := .inr ⟨rfl, .double 7, rfl, rfl⟩
  obtain ⟨pool, hread, hfollow, hnone⟩ := read_resolves_by_slot _ 5 h 0 [0xCA]
  refine ⟨h, pool, hread, ?_, ?_, ?_, ?_⟩
  · exact ((hfollow 3).1 _).2 (.found ⟨1, rfl, rfl⟩)
  · exact ((hfollow 2).1 _).2 (.broken (.unusable ((hnone 2).2 (.inr (.inl ⟨0, _, rfl, rfl, rfl⟩)))))
  · exact ((hfollow 5).2.1 _).2 (.broken (.unusable ((hnone 5).2 (.inr (.inr (by decide))))))
  · exact ((hfollow 4).2.2.1 _).2 (.broken (.unexpected ⟨2, rfl, rfl⟩ (by decide)))

end ConstantPool

end MethodScout
