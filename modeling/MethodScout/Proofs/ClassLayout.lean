import MethodScout.ClassFile.Basic
import MethodScout.Proofs.Attempts
import MethodScout.Proofs.PoolSlots

/-!
# The layout of class files

`RawClass` has the parts of a class file as they stand in it, and `RawClass.encode` puts them together. A class is
decoded from exactly the bytes that begin with such parts, and from its parts its name and methods are what the constant
pool and the code arrays say.
-/

namespace MethodScout

/-- An attribute as it stands in a class file. -/
structure RawAttribute where
  name : UInt16
  body : Bytes
  short : body.length < 2 ^ 32

def RawAttribute.encode (a : RawAttribute) : Bytes :=
  Bytes.word 2 a.name.toNat ++ (Bytes.word 4 a.body.length ++ a.body)

/-- A field or a method as it stands in a class file. -/
structure RawMember where
  access : UInt16
  name : UInt16
  descriptor : UInt16
  attributes : List RawAttribute
  few : attributes.length < 65536

def RawMember.encode (m : RawMember) : Bytes :=
  Bytes.word 2 m.access.toNat ++ (Bytes.word 2 m.name.toNat ++ (Bytes.word 2 m.descriptor.toNat ++
    (Bytes.word 2 m.attributes.length ++ m.attributes.flatMap RawAttribute.encode)))

/-- The parts of a class file in their order; the constant pool as its bytes. -/
structure RawClass where
  minor : UInt16
  major : UInt16
  constants : Bytes
  access : UInt16
  thisClass : UInt16
  superClass : UInt16
  interfaces : List UInt16
  fields : List RawMember
  methods : List RawMember
  fewInterfaces : interfaces.length < 65536
  fewFields : fields.length < 65536
  fewMethods : methods.length < 65536

def RawClass.encode (c : RawClass) : Bytes :=
  ([0xCA, 0xFE, 0xBA, 0xBE] ++ (Bytes.word 2 c.minor.toNat ++ Bytes.word 2 c.major.toNat)) ++ (c.constants ++
    (Bytes.word 2 c.access.toNat ++ (Bytes.word 2 c.thisClass.toNat ++ (Bytes.word 2 c.superClass.toNat ++
      (Bytes.word 2 c.interfaces.length ++ (c.interfaces.flatMap (fun i => Bytes.word 2 i.toNat) ++
        (Bytes.word 2 c.fields.length ++ (c.fields.flatMap RawMember.encode ++
          (Bytes.word 2 c.methods.length ++ c.methods.flatMap RawMember.encode)))))))))

/-! ## What the parts stand for -/

/-- What an attribute of a method says: the one named `Code` has the instructions, after four bytes and the length of
the code array. -/
inductive RawAttribute.Says (pool : ConstantPool) (a : RawAttribute) : Option (List Instruction) → Prop
  | code {head code rest : Bytes} {xs : List Instruction} (hname : pool.utf8 a.name.toNat = .ok "Code")
      (hhead : head.length = 4) (hbody : a.body = head ++ (Bytes.word 4 code.length ++ (code ++ rest)))
      (hcode : Instruction.decode pool code = .ok xs) : Says pool a (some xs)
  | other {name : String} (hname : pool.utf8 a.name.toNat = .ok name) (hne : name ≠ "Code") : Says pool a none

/-- A method has the name and access flags that stand in the file, and of its code attributes the last one counts. -/
structure RawMember.Describes (pool : ConstantPool) (raw : RawMember) (m : Method) : Prop where
  access : m.access = raw.access.toNat
  name : pool.utf8 raw.name.toNat = .ok m.name
  descriptor : ∃ text, pool.utf8 raw.descriptor.toNat = .ok text
  code : ∃ codes, List.Forall₂ (RawAttribute.Says pool) raw.attributes codes ∧
    m.code = (codes.filterMap id).getLastD []

/-- A class has the name that its own index leads to, with dots for slashes, and its methods in file order. -/
structure RawClass.Describes (raw : RawClass) (pool : ConstantPool) (c : ClassFile) : Prop where
  major : 45 ≤ raw.major.toNat ∧ raw.major.toNat ≤ 69
  constants : ConstantPool.read ⟨0, raw.constants⟩ = .ok (pool, ⟨raw.constants.length, []⟩)
  name : ∃ internal, pool.className raw.thisClass.toNat = .ok internal ∧
    c.name = String.ofList (internal.toList.map fun ch => if ch = '/' then '.' else ch)
  methods : List.Forall₂ (RawMember.Describes pool) raw.methods c.methods

namespace ClassFile

open Reader Decoder

/-! ## Reading the parts -/

theorem follows_skipAttribute : skipAttribute.Follows fun _ bs _ => ∃ a : RawAttribute, bs = a.encode ∧ True := by
  refine ((follows_skip 2).bind fun _ => follows_u32.bind fun n => follows_skip n).congr fun o bs _ => ⟨?_, ?_⟩
  · rintro ⟨_, name, _, rfl, hname, _, _, body, rfl, ⟨hlt, rfl⟩, rfl⟩
    obtain ⟨n, rfl⟩ := PoolEntry.exists_word16 hname
    exact ⟨⟨n, body, hlt⟩, rfl, trivial⟩
  · rintro ⟨⟨name, body, short⟩, rfl, -⟩
    exact ⟨(), _, _, rfl, by simp, body.length, _, body, rfl, ⟨short, rfl⟩, rfl⟩

theorem forall₂_skipped {ρ : Type} (rs : List ρ) :
    List.Forall₂ (fun _ (_ : Unit) => True) rs (rs.map fun _ => ()) :=
  List.forall₂_map_right_iff.mpr (List.forall₂_same.mpr fun _ _ => trivial)

theorem follows_skipField : skipField.Follows fun _ bs _ => ∃ m : RawMember, bs = m.encode ∧ True := by
  refine ((follows_skip 6).bind fun _ =>
    follows_counted follows_skipAttribute fun _ => follows_pure ()).congr fun o bs _ => ⟨?_, ?_⟩
  · rintro ⟨_, head, _, rfl, hhead, attributes, _, _, hfew, rfl, -, rfl, -⟩
    obtain ⟨access, haccess⟩ := PoolEntry.exists_word16 (show (head.take 2).length = 2 by simp [hhead])
    obtain ⟨name, descriptor, hmember⟩ := PoolEntry.exists_pair (show (head.drop 2).length = 4 by simp [hhead])
    refine ⟨⟨access, name, descriptor, attributes, hfew⟩, ?_, trivial⟩
    rw [← List.take_append_drop 2 head, haccess, hmember]
    simp [RawMember.encode, PoolEntry.pair]
  · rintro ⟨⟨access, name, descriptor, attributes, few⟩, rfl, -⟩
    refine ⟨(), Bytes.word 2 access.toNat ++ PoolEntry.pair name descriptor,
      Bytes.word 2 attributes.length ++ attributes.flatMap RawAttribute.encode, ?_, ?_, attributes,
      attributes.map fun _ => (), [], few, ?_, forall₂_skipped attributes, rfl, rfl⟩
    · simp [RawMember.encode, PoolEntry.pair]
    · simp [PoolEntry.pair]
    · simp

theorem follows_codeArray : codeArray.Follows fun _ bs code => ∃ head : Bytes, head.length = 4 ∧ code.length < 2 ^ 32 ∧
    bs = head ++ (Bytes.word 4 code.length ++ code) := by
  refine ((follows_skip 4).bind fun _ => follows_u32.bind fun n => follows_bytes n).congr fun o bs code => ⟨?_, ?_⟩
  · rintro ⟨_, head, _, rfl, hhead, _, _, _, rfl, ⟨hlt, rfl⟩, rfl, rfl⟩
    exact ⟨head, hhead, hlt, rfl⟩
  · rintro ⟨head, hhead, hlt, rfl⟩
    exact ⟨(), head, _, rfl, hhead, code.length, _, code, rfl, ⟨hlt, rfl⟩, rfl, rfl⟩

theorem readAll_codeArray_eq_ok {body code : Bytes} (hshort : body.length < 2 ^ 32) :
    readAll codeArray body = .ok code ↔ ∃ head rest : Bytes, head.length = 4 ∧
      body = head ++ (Bytes.word 4 code.length ++ (code ++ rest)) := by
  rw [follows_codeArray.readAll_eq_ok]
  refine ⟨?_, ?_⟩
  · rintro ⟨_, rest, rfl, head, hhead, -, rfl⟩
    exact ⟨head, rest, hhead, by simp⟩
  · rintro ⟨head, rest, hhead, rfl⟩
    refine ⟨_, rest, ?_, head, hhead, ?_, rfl⟩
    · simp
    · simp only [List.length_append] at hshort
      omega

theorem follows_readAttribute (pool : ConstantPool) :
    (readAttribute pool).Follows fun _ bs found => ∃ a : RawAttribute, bs = a.encode ∧ a.Says pool found := by
  refine (follows_indexed fun name => follows_u32.bind fun n => (follows_bytes n).bind fun body =>
    ((follows_lift (readAll codeArray body)).bind fun code =>
      (follows_lift (Instruction.decode pool code)).map some).ite (follows_pure none)).congr fun o bs found => ⟨?_, ?_⟩
  · rintro ⟨index, name, _, rfl, hname, _, _, _, rfl, ⟨hlt, rfl⟩, body, _, rest, rfl, ⟨rfl, rfl⟩, hfound⟩
    split at hfound
    · rename_i hcode
      obtain ⟨code, _, _, rfl, ⟨rfl, hread⟩, xs, ⟨rfl, hxs⟩, rfl⟩ := hfound
      obtain ⟨head, rest, hhead, hbody⟩ := (readAll_codeArray_eq_ok hlt).mp hread
      exact ⟨⟨index, body, hlt⟩, by simp [RawAttribute.encode], .code (hcode ▸ hname) hhead hbody hxs⟩
    · obtain ⟨rfl, rfl⟩ := hfound
      exact ⟨⟨index, body, hlt⟩, by simp [RawAttribute.encode], .other hname ‹_›⟩
  · rintro ⟨⟨index, body, short⟩, rfl, hsays⟩
    cases hsays with
    | @code head code rest xs hname hhead hbody hcode =>
        refine ⟨index, "Code", _, rfl, hname, body.length, _, body, rfl, ⟨short, rfl⟩, body, body, [], by simp,
          ⟨rfl, rfl⟩, ?_⟩
        exact (if_pos rfl).mpr ⟨code, [], [], rfl, ⟨rfl, (readAll_codeArray_eq_ok short).mpr ⟨head, rest, hhead, hbody⟩⟩, xs,
          ⟨rfl, hcode⟩, rfl⟩
    | @other name hname hne =>
        refine ⟨index, name, _, rfl, hname, body.length, _, body, rfl, ⟨short, rfl⟩, body, body, [], by simp,
          ⟨rfl, rfl⟩, ?_⟩
        exact (if_neg hne).mpr ⟨rfl, rfl⟩

theorem foldl_found_eq (codes : List (Option (List Instruction))) (first : List Instruction) :
    codes.foldl (fun code found => found.getD code) first = (codes.filterMap id).getLastD first := by
  induction codes generalizing first with
  | nil => rfl
  | cons found codes ih =>
      rw [List.foldl_cons, ih]
      cases found with
      | none => simp
      | some code => rw [List.filterMap_cons_some (f := id) rfl, List.getLastD_cons, Option.getD_some]

theorem follows_readMethod (pool : ConstantPool) :
    (readMethod pool).Follows fun _ bs m => ∃ raw : RawMember, bs = raw.encode ∧ raw.Describes pool m := by
  have hcodes (name : String) (access : Nat) := follows_counted (follows_readAttribute pool) fun codes =>
    follows_pure (Method.mk name access (codes.foldl (fun code found => found.getD code) []))
  have hall := follows_u16.bind fun access => follows_indexed (f := pool.utf8) fun name =>
    follows_indexed (f := pool.utf8) fun _ => hcodes name access
  refine Follows.congr (p := readMethod pool) hall fun o bs m => ⟨?_, ?_⟩
  · rintro ⟨_, _, _, rfl, ⟨access, rfl, rfl⟩, nameIndex, name, _, rfl, hname, descriptorIndex, descriptor, _, rfl,
      hdescriptor, attributes, codes, _, hfew, rfl, hcodes, rfl, rfl⟩
    exact ⟨⟨access, nameIndex, descriptorIndex, attributes, hfew⟩, by simp [RawMember.encode], rfl, hname,
      ⟨descriptor, hdescriptor⟩, codes, hcodes, foldl_found_eq codes []⟩
  · rintro ⟨⟨access, nameIndex, descriptorIndex, attributes, few⟩, rfl, haccess, hname, ⟨descriptor, hdescriptor⟩, codes,
      hcodes, hcode⟩
    refine ⟨access.toNat, _, _, rfl, ⟨access, rfl, rfl⟩, nameIndex, m.name, _, rfl, hname, descriptorIndex, descriptor,
      _, rfl, hdescriptor, attributes, codes, [], few, by simp, hcodes, rfl, ?_⟩
    rw [foldl_found_eq, ← hcode, ← haccess]

theorem follows_readHeader : readHeader.Follows fun _ bs _ => ∃ minor major : UInt16,
    (45 ≤ major.toNat ∧ major.toNat ≤ 69) ∧
      bs = [0xCA, 0xFE, 0xBA, 0xBE] ++ (Bytes.word 2 minor.toNat ++ Bytes.word 2 major.toNat) := by
  have hversion := follows_u16.bind fun minor => follows_u16.bind fun major =>
    (follows_throw (DecodeFault.unsupportedVersion major minor)).ite (c := (!supports major) = true) (follows_pure ())
  refine (follows_u32.bind fun word => Follows.unless hversion).congr fun o bs _ => ⟨?_, ?_⟩
  · rintro ⟨_, _, _, rfl, ⟨-, rfl⟩, hmagic, _, _, _, rfl, ⟨minor, rfl, rfl⟩, _, _, _, rfl, ⟨major, rfl, rfl⟩, hsupports⟩
    split at hsupports
    · exact hsupports.elim
    · rename_i hmajor
      obtain ⟨rfl, -⟩ := hsupports
      refine ⟨minor, major, by simpa [supports] using hmajor, ?_⟩
      rw [not_not.mp hmagic, List.append_nil]
      rfl
  · rintro ⟨minor, major, hmajor, rfl⟩
    refine ⟨magic, _, _, rfl, ⟨by decide, rfl⟩, by simp, minor.toNat, _, _, rfl, ⟨minor, rfl, rfl⟩, major.toNat, _, [],
      (List.append_nil _).symm, ⟨major, rfl, rfl⟩, ?_⟩
    exact (if_neg (by simpa [supports] using hmajor)).mpr ⟨rfl, rfl⟩

theorem exists_indices {bs : Bytes} {n : Nat} (h : bs.length = 2 * n) :
    ∃ is : List UInt16, is.length = n ∧ bs = is.flatMap fun i => Bytes.word 2 i.toNat := by
  induction n generalizing bs with
  | zero => exact ⟨[], rfl, List.eq_nil_of_length_eq_zero h⟩
  | succ n ih =>
      obtain ⟨i, hi⟩ := PoolEntry.exists_word16 (show (bs.take 2).length = 2 by simp; omega)
      obtain ⟨is, rfl, his⟩ := ih (show (bs.drop 2).length = 2 * n by simp; omega)
      exact ⟨i :: is, rfl, by rw [List.flatMap_cons, ← hi, ← his, List.take_append_drop]⟩

theorem length_indices (is : List UInt16) :
    (is.flatMap fun i => Bytes.word 2 i.toNat).length = 2 * is.length := by
  simp [List.length_flatMap, Nat.mul_comm]

theorem follows_read : read.Follows fun _ bs c => ∃ (raw : RawClass) (pool : ConstantPool),
    bs = raw.encode ∧ raw.Describes pool c := by
  have hmembers (pool : ConstantPool) (name : String) := follows_counted follows_skipField fun _ =>
    follows_counted (follows_readMethod pool) fun methods =>
      follows_pure (ClassFile.mk (Text.replaceChars (· == '/') '.' name) methods)
  have hall := follows_readHeader.bind fun _ => ConstantPool.follows_accepted.bind fun pool => follows_u16.bind fun _ =>
    follows_indexed (f := pool.className) fun name => follows_u16.bind fun _ => follows_u16.bind fun n =>
      (follows_skip (2 * n)).bind fun _ => hmembers pool name
  refine Follows.congr (p := read) hall fun o bs c => ⟨?_, ?_⟩
  · rintro ⟨_, _, _, rfl, ⟨minor, major, hmajor, rfl⟩, pool, constants, _, rfl, hpool, h⟩
    obtain ⟨_, _, _, rfl, ⟨access, rfl, rfl⟩, thisClass, name, _, rfl, hname, h⟩ := h
    obtain ⟨_, _, _, rfl, ⟨superClass, rfl, rfl⟩, _, _, _, rfl, ⟨n, rfl, rfl⟩, _, _, _, rfl, hinterfaces, h⟩ := h
    obtain ⟨fields, _, _, hfields, rfl, -, methods, ms, _, hmethods, rfl, hms, rfl, rfl⟩ := h
    obtain ⟨interfaces, hcount, rfl⟩ := exists_indices hinterfaces
    refine ⟨⟨minor, major, constants, access, thisClass, superClass, interfaces, fields, methods, hcount ▸ n.toNat_lt,
      hfields, hmethods⟩, pool, ?_, hmajor, hpool, ⟨name, hname, ?_⟩, hms⟩
    · simp [RawClass.encode, hcount]
    · simp [Text.replaceChars]
  · rintro ⟨⟨minor, major, constants, access, thisClass, superClass, interfaces, fields, methods, fewInterfaces, fewFields,
      fewMethods⟩, pool, rfl, hmajor, hpool, ⟨name, hname, hdots⟩, hms⟩
    refine ⟨(), _, _, rfl, ⟨minor, major, hmajor, rfl⟩, pool, constants, _, rfl, hpool, access.toNat, _, _, rfl,
      ⟨access, rfl, rfl⟩, thisClass, name, _, rfl, hname, superClass.toNat, _, _, rfl, ⟨superClass, rfl, rfl⟩,
      interfaces.length, _, _, rfl, ⟨UInt16.ofNatLT _ fewInterfaces, rfl, rfl⟩, (), _, _, rfl, length_indices interfaces,
      fields, _, _, fewFields, rfl, forall₂_skipped fields, methods, c.methods, [], fewMethods, ?_, hms, rfl, ?_⟩
    · simp
    · simp [Text.replaceChars, ← hdots]

/-- A class is decoded from exactly the bytes that begin with the parts of a class file that describe it. -/
theorem decode_eq_ok_iff_layout (bs : Bytes) (c : ClassFile) :
    decode bs = .ok c ↔ ∃ (raw : RawClass) (pool : ConstantPool) (trailing : Bytes),
      bs = raw.encode ++ trailing ∧ raw.Describes pool c := by
  refine follows_read.readAll_eq_ok.trans ⟨?_, ?_⟩
  · rintro ⟨_, trailing, rfl, raw, pool, rfl, h⟩
    exact ⟨raw, pool, trailing, rfl, h⟩
  · rintro ⟨raw, pool, trailing, rfl, h⟩
    exact ⟨_, trailing, rfl, raw, pool, rfl, h⟩

end ClassFile

end MethodScout
