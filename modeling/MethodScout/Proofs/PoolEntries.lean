import MethodScout.ClassFile.ConstantPool
import MethodScout.Proofs.Formats

/-!
# The constants of a class file

`PoolEntry` has the constants as they stand in a class file, each with its tag and its payload. A constant is read from
exactly the bytes that an entry is written as.
-/

namespace MethodScout

/-- A constant as it stands in a class file. -/
inductive PoolEntry where
  | utf8 (text : Bytes) (short : text.length < 65536)
  | integer (bits : UInt32)
  | float (bits : UInt32)
  | long (bits : UInt64)
  | double (bits : UInt64)
  | classRef (name : UInt16)
  | string (text : UInt16)
  | fieldRef (owner nameAndType : UInt16)
  | methodRef (owner nameAndType : UInt16)
  | interfaceMethodRef (owner nameAndType : UInt16)
  | nameAndType (name descriptor : UInt16)
  | methodHandle (kind : UInt8) (reference : UInt16)
  | methodType (descriptor : UInt16)
  | dynamic (bootstrap nameAndType : UInt16)
  | invokeDynamic (bootstrap nameAndType : UInt16)
  | moduleRef (name : UInt16)
  | packageRef (name : UInt16)
  deriving DecidableEq

namespace PoolEntry

def tag : PoolEntry → UInt8
  | utf8 .. => 1
  | integer _ => 3
  | float _ => 4
  | long _ => 5
  | double _ => 6
  | classRef _ => 7
  | string _ => 8
  | fieldRef .. => 9
  | methodRef .. => 10
  | interfaceMethodRef .. => 11
  | nameAndType .. => 12
  | methodHandle .. => 15
  | methodType _ => 16
  | dynamic .. => 17
  | invokeDynamic .. => 18
  | moduleRef _ => 19
  | packageRef _ => 20

/-- Two numbers of two bytes. -/
def pair (a b : UInt16) : Bytes := Bytes.word 2 a.toNat ++ Bytes.word 2 b.toNat

/-- What follows the tag. -/
def payload : PoolEntry → Bytes
  | utf8 text _ => Bytes.word 2 text.length ++ text
  | integer bits | float bits => Bytes.word 4 bits.toNat
  | long bits | double bits => Bytes.word 8 bits.toNat
  | classRef index | string index | methodType index | moduleRef index | packageRef index => Bytes.word 2 index.toNat
  | methodHandle kind reference => kind :: Bytes.word 2 reference.toNat
  | fieldRef a b | methodRef a b | interfaceMethodRef a b | nameAndType a b | dynamic a b | invokeDynamic a b => pair a b

def encode (e : PoolEntry) : Bytes := e.tag :: e.payload

/-- Whether the constant takes two slots. -/
def isWide : PoolEntry → Bool
  | long _ | double _ => true
  | _ => false

def slots (e : PoolEntry) : Nat := if e.isWide then 2 else 1

/-- What is kept of a constant. -/
def constant : PoolEntry → Constant
  | utf8 text _ => .utf8 (Text.ModifiedUtf8.decode text)
  | classRef name => .classRef name.toNat
  | nameAndType name descriptor => .nameAndType name.toNat descriptor.toNat
  | methodRef owner member | interfaceMethodRef owner member => .methodRef owner.toNat member.toNat
  | invokeDynamic _ site => .invokeDynamic site.toNat
  | long _ | double _ => .wide
  | _ => .other

theorem constant_eq_wide {e : PoolEntry} : e.constant = .wide ↔ e.isWide = true := by
  cases e <;> simp [constant, isWide]

/-! ## Reading one constant -/

theorem exists_word16 {bs : Bytes} (h : bs.length = 2) : ∃ n : UInt16, bs = Bytes.word 2 n.toNat := by
  obtain ⟨hlt, hbs⟩ := Bytes.bigEndian_eq_iff.mp ⟨h, rfl⟩
  exact ⟨UInt16.ofNatLT bs.bigEndian hlt, hbs⟩

theorem exists_word32 {bs : Bytes} (h : bs.length = 4) : ∃ n : UInt32, bs = Bytes.word 4 n.toNat := by
  obtain ⟨hlt, hbs⟩ := Bytes.bigEndian_eq_iff.mp ⟨h, rfl⟩
  exact ⟨UInt32.ofNatLT bs.bigEndian hlt, hbs⟩

theorem exists_word64 {bs : Bytes} (h : bs.length = 8) : ∃ n : UInt64, bs = Bytes.word 8 n.toNat := by
  obtain ⟨hlt, hbs⟩ := Bytes.bigEndian_eq_iff.mp ⟨h, rfl⟩
  exact ⟨UInt64.ofNatLT bs.bigEndian hlt, hbs⟩

theorem exists_pair {bs : Bytes} (h : bs.length = 4) : ∃ a b : UInt16, bs = pair a b := by
  obtain ⟨a, ha⟩ := exists_word16 (show (bs.take 2).length = 2 by simp [h])
  obtain ⟨b, hb⟩ := exists_word16 (show (bs.drop 2).length = 2 by simp [h])
  exact ⟨a, b, by rw [pair, ← ha, ← hb, List.take_append_drop]⟩

theorem exists_handle {bs : Bytes} (h : bs.length = 3) :
    ∃ (kind : UInt8) (n : UInt16), bs = kind :: Bytes.word 2 n.toNat := by
  obtain ⟨kind, tail, rfl⟩ := List.exists_cons_of_length_eq_add_one h
  obtain ⟨n, rfl⟩ := exists_word16 (show tail.length = 2 by simpa using h)
  exact ⟨kind, n, rfl⟩

end PoolEntry

namespace ConstantPool

open Reader Decoder PoolEntry

theorem follows_index (f : Nat → Constant) :
    (do return f (← u16) : Decoder Constant).Follows fun _ bs c =>
      ∃ n : UInt16, bs = Bytes.word 2 n.toNat ∧ c = f n.toNat := by
  refine (follows_u16.map f).congr fun o bs c => ⟨?_, ?_⟩
  · rintro ⟨_, ⟨n, rfl, rfl⟩, rfl⟩
    exact ⟨n, rfl, rfl⟩
  · rintro ⟨n, rfl, rfl⟩
    exact ⟨n.toNat, ⟨n, rfl, rfl⟩, rfl⟩

theorem follows_indices (f : Nat → Nat → Constant) :
    (do return f (← u16) (← u16) : Decoder Constant).Follows fun _ bs c =>
      ∃ a b : UInt16, bs = pair a b ∧ c = f a.toNat b.toNat := by
  refine (follows_u16.bind fun a => follows_index (f a)).congr fun o bs c => ?_
  constructor
  · rintro ⟨_, _, _, rfl, ⟨a, rfl, rfl⟩, b, rfl, rfl⟩
    exact ⟨a, b, rfl, rfl⟩
  · rintro ⟨a, b, rfl, rfl⟩
    exact ⟨a.toNat, _, _, rfl, ⟨a, rfl, rfl⟩, b, rfl, rfl⟩

theorem follows_lateIndex (f : Nat → Constant) :
    (do skip 2; return f (← u16) : Decoder Constant).Follows fun _ bs c =>
      ∃ a b : UInt16, bs = pair a b ∧ c = f b.toNat := by
  refine ((follows_skip 2).bind fun _ => follows_index f).congr fun o bs c => ?_
  constructor
  · rintro ⟨_, first, _, rfl, hfirst, b, rfl, rfl⟩
    obtain ⟨a, rfl⟩ := exists_word16 hfirst
    exact ⟨a, b, rfl, rfl⟩
  · rintro ⟨a, b, rfl, rfl⟩
    exact ⟨(), _, _, rfl, by simp, b, rfl, rfl⟩

theorem follows_text :
    (do return .utf8 (Text.ModifiedUtf8.decode (← bytes (← u16))) : Decoder Constant).Follows fun _ bs c =>
      ∃ text : Bytes, text.length < 65536 ∧ bs = Bytes.word 2 text.length ++ text ∧
        c = .utf8 (Text.ModifiedUtf8.decode text) := by
  refine (follows_u16.bind fun n => (follows_bytes n).map fun text =>
    Constant.utf8 (Text.ModifiedUtf8.decode text)).congr fun o bs c => ⟨?_, ?_⟩
  · rintro ⟨_, _, _, rfl, ⟨n, rfl, rfl⟩, text, ⟨hlen, rfl⟩, rfl⟩
    exact ⟨text, hlen ▸ n.toNat_lt, by rw [hlen], rfl⟩
  · rintro ⟨text, hlen, rfl, rfl⟩
    exact ⟨text.length, _, _, rfl, ⟨UInt16.ofNatLT _ hlen, rfl, rfl⟩, text, ⟨rfl, rfl⟩, rfl⟩

theorem readPayload_run (e : PoolEntry) (index o : Nat) (rest : Bytes) :
    readPayload index e.tag.toNat ⟨o, e.payload ++ rest⟩ = .ok (e.constant, ⟨o + e.payload.length, rest⟩) := by
  cases e with
  | utf8 text short => exact follows_text.run ⟨text, short, rfl, rfl⟩ rest
  | integer bits | float bits => exact (follows_skipped 4 Constant.other).run ⟨by simp [payload], rfl⟩ rest
  | long bits | double bits => exact (follows_skipped 8 Constant.wide).run ⟨by simp [payload], rfl⟩ rest
  | classRef name => exact (follows_index .classRef).run ⟨name, rfl, rfl⟩ rest
  | string index | methodType index | moduleRef index | packageRef index =>
      exact (follows_skipped 2 Constant.other).run ⟨by simp [payload], rfl⟩ rest
  | fieldRef a b | dynamic a b =>
      exact (follows_skipped 4 Constant.other).run ⟨by simp [payload, pair], rfl⟩ rest
  | methodRef a b | interfaceMethodRef a b => exact (follows_indices .methodRef).run ⟨a, b, rfl, rfl⟩ rest
  | nameAndType a b => exact (follows_indices .nameAndType).run ⟨a, b, rfl, rfl⟩ rest
  | methodHandle kind reference => exact (follows_skipped 3 Constant.other).run ⟨by simp [payload], rfl⟩ rest
  | invokeDynamic a b => exact (follows_lateIndex .invokeDynamic).run ⟨a, b, rfl, rfl⟩ rest

/-- Of what is skipped after a tag, any bytes of the right length are the payload of an entry with that tag. -/
theorem exists_entry_of_skipped {n tag o o' : Nat} {bs rest : Bytes} {c c' : Constant}
    (hentry : ∀ payload : Bytes, payload.length = n →
      ∃ e : PoolEntry, e.tag.toNat = tag ∧ e.constant = c ∧ payload = e.payload)
    (h : (do skip n; return c : Decoder Constant) ⟨o, bs⟩ = .ok (c', ⟨o', rest⟩)) :
    ∃ e : PoolEntry, e.tag.toNat = tag ∧ e.constant = c' ∧ bs = e.payload ++ rest ∧ o' = o + e.payload.length := by
  obtain ⟨payload, rfl, rfl, hlen, rfl⟩ := (follows_skipped n c _ _ _ _ _).mp h
  obtain ⟨e, htag, hc, rfl⟩ := hentry payload hlen
  exact ⟨e, htag, hc, rfl, rfl⟩

theorem exists_entry_of_readPayload {index tag o o' : Nat} {bs rest : Bytes} {c : Constant}
    (h : readPayload index tag ⟨o, bs⟩ = .ok (c, ⟨o', rest⟩)) :
    ∃ e : PoolEntry, e.tag.toNat = tag ∧ e.constant = c ∧ bs = e.payload ++ rest ∧ o' = o + e.payload.length := by
  unfold readPayload at h
  split at h
  · obtain ⟨_, rfl, rfl, text, hshort, rfl, rfl⟩ := (follows_text _ _ _ _ _).mp h
    exact ⟨.utf8 text hshort, rfl, rfl, rfl, rfl⟩
  · exact exists_entry_of_skipped (fun _ hlen => (exists_word32 hlen).imp' .integer fun _ hbs => ⟨rfl, rfl, hbs⟩) h
  · exact exists_entry_of_skipped (fun _ hlen => (exists_word32 hlen).imp' .float fun _ hbs => ⟨rfl, rfl, hbs⟩) h
  · refine exists_entry_of_skipped (fun _ hlen => ?_) h
    obtain ⟨a, b, hbs⟩ := exists_pair hlen
    exact ⟨.fieldRef a b, rfl, rfl, hbs⟩
  · refine exists_entry_of_skipped (fun _ hlen => ?_) h
    obtain ⟨a, b, hbs⟩ := exists_pair hlen
    exact ⟨.dynamic a b, rfl, rfl, hbs⟩
  · exact exists_entry_of_skipped (fun _ hlen => (exists_word64 hlen).imp' .long fun _ hbs => ⟨rfl, rfl, hbs⟩) h
  · exact exists_entry_of_skipped (fun _ hlen => (exists_word64 hlen).imp' .double fun _ hbs => ⟨rfl, rfl, hbs⟩) h
  · obtain ⟨_, rfl, rfl, n, rfl, rfl⟩ := (follows_index .classRef _ _ _ _ _).mp h
    exact ⟨.classRef n, rfl, rfl, rfl, rfl⟩
  · exact exists_entry_of_skipped (fun _ hlen => (exists_word16 hlen).imp' .string fun _ hbs => ⟨rfl, rfl, hbs⟩) h
  · exact exists_entry_of_skipped (fun _ hlen => (exists_word16 hlen).imp' .methodType fun _ hbs => ⟨rfl, rfl, hbs⟩) h
  · exact exists_entry_of_skipped (fun _ hlen => (exists_word16 hlen).imp' .moduleRef fun _ hbs => ⟨rfl, rfl, hbs⟩) h
  · exact exists_entry_of_skipped (fun _ hlen => (exists_word16 hlen).imp' .packageRef fun _ hbs => ⟨rfl, rfl, hbs⟩) h
  · obtain ⟨_, rfl, rfl, a, b, rfl, rfl⟩ := (follows_indices .methodRef _ _ _ _ _).mp h
    exact ⟨.methodRef a b, rfl, rfl, rfl, rfl⟩
  · obtain ⟨_, rfl, rfl, a, b, rfl, rfl⟩ := (follows_indices .methodRef _ _ _ _ _).mp h
    exact ⟨.interfaceMethodRef a b, rfl, rfl, rfl, rfl⟩
  · obtain ⟨_, rfl, rfl, a, b, rfl, rfl⟩ := (follows_indices .nameAndType _ _ _ _ _).mp h
    exact ⟨.nameAndType a b, rfl, rfl, rfl, rfl⟩
  · refine exists_entry_of_skipped (fun _ hlen => ?_) h
    obtain ⟨kind, n, hbs⟩ := exists_handle hlen
    exact ⟨.methodHandle kind n, rfl, rfl, hbs⟩
  · obtain ⟨_, rfl, rfl, a, b, rfl, rfl⟩ := (follows_lateIndex .invokeDynamic _ _ _ _ _).mp h
    exact ⟨.invokeDynamic a b, rfl, rfl, rfl, rfl⟩
  · cases h

theorem follows_readConstant (index : Nat) :
    (readConstant index).Follows fun _ bs c => ∃ e : PoolEntry, bs = e.encode ∧ c = e.constant := by
  intro o bs c o' rest
  refine ⟨fun h => ?_, ?_⟩
  · obtain ⟨_, ⟨_, bs'⟩, htag, h⟩ := bind_eq_ok.mp h
    obtain ⟨_, rfl, rfl, tag, rfl, rfl⟩ := (follows_u8 _ _ _ _ _).mp htag
    obtain ⟨e, he, rfl, rfl, rfl⟩ := exists_entry_of_readPayload h
    obtain rfl := UInt8.toNat_inj.mp he
    exact ⟨e.encode, rfl, by simp [encode]; omega, e, rfl, rfl⟩
  · rintro ⟨_, rfl, rfl, e, rfl, rfl⟩
    have htag := follows_u8.run (o := o) ⟨e.tag, rfl, rfl⟩ (e.payload ++ rest)
    have hlen : o + e.encode.length = o + 1 + e.payload.length := by simp [encode]; omega
    exact bind_eq_ok.mpr ⟨_, _, htag, hlen ▸ readPayload_run e index _ rest⟩

end ConstantPool

end MethodScout
