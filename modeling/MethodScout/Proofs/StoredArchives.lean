import MethodScout.Proofs.Aggregation
import MethodScout.Proofs.Formats
import MethodScout.Proofs.Rules
import MethodScout.Proofs.Utf8Sequences
import MethodScout.Scan.Root

/-!
# Archives that are read as they were written

`Archive.write` lays out entries one after the other without compression, then the directory and the end record. Whatever
bytes stand before it, the directory is found from the end, the places of the entries are shifted by the number of those
bytes, and every name gives the content of the last entry that has it.
-/

namespace MethodScout

namespace Bytes

/-- The last `width` digits of a number to base 256, the least significant first. -/
def lowWord : (width n : Nat) → Bytes
  | 0, _ => []
  | width + 1, n => UInt8.ofNat n :: lowWord width (n / 256)

@[simp]
theorem length_lowWord (width n : Nat) : (lowWord width n).length = width := by
  induction width generalizing n with
  | zero => rfl
  | succ width ih => simp [lowWord, ih]

theorem littleEndian_lowWord {width n : Nat} (h : n < 256 ^ width) : littleEndian (lowWord width n) = n := by
  induction width generalizing n with
  | zero => simp_all [lowWord, littleEndian]
  | succ width ih =>
      have hn : n / 256 < 256 ^ width := Nat.div_lt_of_lt_mul (by rwa [Nat.pow_succ, Nat.mul_comm] at h)
      rw [lowWord, littleEndian, ih hn, UInt8.toNat_ofNat']
      omega

end Bytes

/-! ## Readers on what was written -/

namespace Reader

variable {ε α β : Type} {p : Reader ε α} {q : α → Reader ε β} {bs bs' : Bytes} {a : α} {b : β}

/-- The reader takes the bytes, whatever stands before and after them, and gives the value. -/
def Reads (p : Reader ε α) (bs : Bytes) (a : α) : Prop :=
  ∀ (o : Nat) (rest : Bytes), p ⟨o, bs ++ rest⟩ = .ok (a, ⟨o + bs.length, rest⟩)

theorem Follows.reads {F : Format α} (h : p.Follows F) (ha : ∀ o, F o bs a) : p.Reads bs a :=
  fun o rest => h.run (ha o) rest

theorem reads_pure (a : α) : (pure a : Reader ε α).Reads [] a :=
  (follows_pure a).reads fun _ => ⟨rfl, rfl⟩

theorem reads_take (short : Shortfall → ε) {n : Nat} (h : bs.length = n) : (take short n).Reads bs bs :=
  (follows_take short n).reads fun _ => ⟨h, rfl⟩

theorem Reads.bind (hp : p.Reads bs a) (hq : (q a).Reads bs' b) : (p >>= q).Reads (bs ++ bs') b := by
  intro o rest
  rw [List.append_assoc, List.length_append, ← Nat.add_assoc]
  exact bind_eq_ok.mpr ⟨a, _, hp o _, hq _ rest⟩

theorem Reads.unless {c : Prop} [Decidable c] {e : ε} {k : Unit → Reader ε α} (hc : ¬c) (h : (k ()).Reads bs a) :
    (if c then throw e >>= k else k ()).Reads bs a := by
  rwa [if_neg hc]

theorem Reads.readAll (h : p.Reads bs a) (rest : Bytes) : p.readAll (bs ++ rest) = .ok a :=
  readAll_eq_ok_iff.mpr ⟨_, h 0 rest⟩

end Reader

namespace Archive

open Reader

variable {ε α : Type} {short : ε} {bs : Bytes} {a : α}

theorem reads_number {width n : Nat} (h : n < 256 ^ width) : (number short width).Reads (Bytes.lowWord width n) n :=
  ((follows_take (fun _ => short) width).map Bytes.littleEndian).reads fun _ =>
    ⟨_, ⟨Bytes.length_lowWord width n, rfl⟩, (Bytes.littleEndian_lowWord h).symm⟩

theorem reads_skip {n : Nat} (h : bs.length = n) : (skip short n).Reads bs () :=
  ((follows_take (fun _ => short) n).map fun _ => ()).reads fun _ => ⟨bs, ⟨h, rfl⟩, rfl⟩

/-! ## Writing -/

/-- An entry to write. What its headers say beyond name and content is read by nobody. -/
structure Item where
  name : String
  content : Bytes
  maker : UInt16 := 20
  version : UInt16 := 20
  time : UInt16 := 0
  date : UInt16 := 0
  internalAttributes : UInt16 := 0
  externalAttributes : UInt32 := 0

namespace Item

/-- The flag that the name is in UTF-8. -/
def flags : Nat := 0x800

/-- What the local header and the directory both say: version, flags, method, time, date, checksum, the size before and
after compression and the lengths of the name and of an empty extra field. -/
def header (i : Item) : Bytes :=
  Bytes.lowWord 2 i.version.toNat ++ Bytes.lowWord 2 flags ++ Bytes.lowWord 2 0 ++ Bytes.lowWord 2 i.time.toNat ++
    Bytes.lowWord 2 i.date.toNat ++ Bytes.lowWord 4 (crc32 i.content).toNat ++ Bytes.lowWord 4 i.content.length ++
    Bytes.lowWord 4 i.content.length ++ Bytes.lowWord 2 (Text.utf8 i.name).length ++ Bytes.lowWord 2 0

/-- The local header and the content. -/
def record (i : Item) : Bytes := localSignature ++ i.header ++ Text.utf8 i.name ++ i.content

/-- What the directory says of the entry, when its record stands `place` bytes after the start. -/
def directoryRecord (i : Item) (place : Nat) : Bytes :=
  directorySignature ++ Bytes.lowWord 2 i.maker.toNat ++ i.header ++ Bytes.lowWord 2 0 ++ Bytes.lowWord 2 0 ++
    Bytes.lowWord 2 i.internalAttributes.toNat ++ Bytes.lowWord 4 i.externalAttributes.toNat ++ Bytes.lowWord 4 place ++
    Text.utf8 i.name

theorem length_header (i : Item) : i.header.length = 26 := by simp [header]

theorem length_record (i : Item) : i.record.length = 30 + (Text.utf8 i.name).length + i.content.length := by
  simp [record, length_header, localSignature]
  omega

def entry (i : Item) (place : Nat) : Entry := ⟨i.name, false, 0, crc32 i.content, i.content.length, place⟩

end Item

def records (items : List Item) : Bytes := items.flatMap Item.record

/-- The directory of items whose records begin `place` bytes after the start. -/
def directoryFrom (place : Nat) : List Item → Bytes
  | [] => []
  | i :: items => i.directoryRecord place ++ directoryFrom (place + i.record.length) items

def endRecord (count size place : Nat) : Bytes :=
  endSignature ++ Bytes.lowWord 2 0 ++ Bytes.lowWord 2 0 ++ Bytes.lowWord 2 count ++ Bytes.lowWord 2 count ++
    Bytes.lowWord 4 size ++ Bytes.lowWord 4 place ++ Bytes.lowWord 2 0

/-- The items as an archive without compression, without a comment and without numbers that do not fit. -/
def write (items : List Item) : Bytes :=
  records items ++ directoryFrom 0 items ++
    endRecord items.length (directoryFrom 0 items).length (records items).length

/-- The items have an archive in which all numbers fit. -/
structure Fits (items : List Item) : Prop where
  few : items.length < 0xFFFF
  names : ∀ i ∈ items, (Text.utf8 i.name).length < 0x10000
  small : (write items).length < 0xFFFFFFFF

/-! ## Reading the directory -/

theorem decodeLossy_utf8 (text : String) : Text.Utf8.decodeLossy (Text.utf8 text) = text := by
  rw [Text.utf8_eq_flatMap, Text.Utf8.decodeLossy, Text.Utf8.characters_encode]
  simp

theorem Item.reads_directoryRecord {i : Item} {place : Nat} (shift : Nat) (hname : (Text.utf8 i.name).length < 0x10000)
    (hcontent : i.content.length < 0x100000000) (hplace : place < 0x100000000) :
    (readEntry shift).Reads (i.directoryRecord place) (i.entry (place + shift)) := by
  have hlayout : i.directoryRecord place = directorySignature ++ ((Bytes.lowWord 2 i.maker.toNat ++
      Bytes.lowWord 2 i.version.toNat) ++ (Bytes.lowWord 2 flags ++ (Bytes.lowWord 2 0 ++ ((Bytes.lowWord 2 i.time.toNat ++
      Bytes.lowWord 2 i.date.toNat) ++ (Bytes.lowWord 4 (crc32 i.content).toNat ++ (Bytes.lowWord 4 i.content.length ++
      (Bytes.lowWord 4 i.content.length ++ (Bytes.lowWord 2 (Text.utf8 i.name).length ++ (Bytes.lowWord 2 0 ++
      (Bytes.lowWord 2 0 ++ ((Bytes.lowWord 2 0 ++ Bytes.lowWord 2 i.internalAttributes.toNat ++
      Bytes.lowWord 4 i.externalAttributes.toNat) ++ (Bytes.lowWord 4 place ++ (Text.utf8 i.name ++ ([] ++ ([] ++ []
      ))))))))))))))) := by
    simp only [directoryRecord, header, List.append_assoc, List.append_nil]
  have hentry : i.entry (place + shift) = {
      name := if flags.testBit 11 then Text.Utf8.decodeLossy (Text.utf8 i.name)
        else Text.CodePage437.decode (Text.utf8 i.name)
      isEncrypted := flags.testBit 0
      method := 0
      checksum := UInt32.ofNat (crc32 i.content).toNat
      size := i.content.length
      place := place + shift } := by
    rw [UInt32.ofNat_toNat, decodeLossy_utf8]
    rfl
  rw [hlayout, hentry]
  unfold readEntry
  refine Reads.bind (reads_take _ rfl) (.unless (by simp) ?_)
  refine Reads.bind (reads_skip (by simp)) ?_
  refine Reads.bind (reads_number (by decide)) ?_
  refine Reads.bind (reads_number (by decide)) ?_
  refine Reads.bind (reads_skip (by simp)) ?_
  refine Reads.bind (reads_number (crc32 i.content).toNat_lt) ?_
  refine Reads.bind (reads_number hcontent) ?_
  refine Reads.bind (reads_skip (by simp)) ?_
  refine Reads.bind (reads_number hname) ?_
  refine Reads.bind (reads_number (by decide)) ?_
  refine Reads.bind (reads_number (by decide)) ?_
  refine Reads.bind (reads_skip (by simp)) ?_
  refine Reads.bind (reads_number hplace) ?_
  refine Reads.bind (reads_take _ rfl) ?_
  refine Reads.bind (reads_skip rfl) ?_
  refine Reads.bind (reads_skip rfl) ?_
  exact reads_pure _

/-- The entries of items whose records begin at a place. -/
def entriesFrom (place : Nat) : List Item → List Entry
  | [] => []
  | i :: items => i.entry place :: entriesFrom (place + i.record.length) items

variable {items : List Item}

theorem reads_directory (shift : Nat) {place : Nat} (hnames : ∀ i ∈ items, (Text.utf8 i.name).length < 0x10000)
    (hsize : place + (records items).length < 0x100000000) :
    (Reader.times items.length (readEntry shift)).Reads (directoryFrom place items)
      (entriesFrom (place + shift) items) := by
  induction items generalizing place with
  | nil => exact reads_pure []
  | cons i items ih =>
      obtain ⟨hname, hnames⟩ := List.forall_mem_cons.mp hnames
      have hrecord := i.length_record
      have hrecords : (records (i :: items)).length = i.record.length + (records items).length := by simp [records]
      have hrest := @ih (place + i.record.length) hnames (by omega)
      have hplace : place + i.record.length + shift = place + shift + i.record.length := by omega
      rw [hplace] at hrest
      rw [List.length_cons, Reader.times_succ, directoryFrom, entriesFrom, ← List.append_nil (directoryFrom _ items)]
      exact Reads.bind (i.reads_directoryRecord shift hname (by omega) (by omega)) (Reads.bind hrest (reads_pure _))

theorem reads_endRecord {count size place : Nat} (hcount : count < 0x10000) (hsize : size < 0x100000000)
    (hplace : place < 0x100000000) :
    readEndRecord.Reads (endRecord count size place) ⟨0, 0, count, count, size, place⟩ := by
  have hlayout : endRecord count size place = endSignature ++ (Bytes.lowWord 2 0 ++ (Bytes.lowWord 2 0 ++
      (Bytes.lowWord 2 count ++ (Bytes.lowWord 2 count ++ (Bytes.lowWord 4 size ++ (Bytes.lowWord 4 place ++
      (Bytes.lowWord 2 0 ++ ([] ++ [])))))))) := by
    simp only [endRecord, List.append_assoc, List.append_nil]
  rw [hlayout]
  unfold readEndRecord
  refine Reads.bind (reads_skip rfl) ?_
  refine Reads.bind (reads_number (by decide)) ?_
  refine Reads.bind (reads_number (by decide)) ?_
  refine Reads.bind (reads_number hcount) ?_
  refine Reads.bind (reads_number hcount) ?_
  refine Reads.bind (reads_number hsize) ?_
  refine Reads.bind (reads_number hplace) ?_
  refine Reads.bind (reads_number (by decide)) ?_
  refine Reads.bind (reads_skip rfl) ?_
  exact reads_pure _

/-! ## Finding the directory -/

theorem lastEndRecord?_of_past {size position : Nat} {found : Option (Nat × Bytes)}
    (h : size < position + endRecordSize) :
    lastEndRecord? size position found bs = found := by
  induction bs generalizing position with
  | nil => rfl
  | cons b rest ih =>
      have hnot : ¬(position + endRecordSize ≤ size ∧ size ≤ position + endRecordSize + longestComment ∧
          endSignature.isPrefixOf (b :: rest) = true) := by omega
      rw [lastEndRecord?, if_neg hnot]
      exact ih (by omega)

/-- An end record without a comment, at the very end, is the one that is found, whatever stands before it. -/
theorem lastEndRecord?_append {size position : Nat} {found : Option (Nat × Bytes)} {before tail : Bytes}
    (hsignature : endSignature.isPrefixOf tail = true) (hsize : size = position + before.length + endRecordSize) :
    lastEndRecord? size position found (before ++ tail) = some (position + before.length, tail) := by
  induction before generalizing position found with
  | nil =>
      cases tail with
      | nil => simp [endSignature] at hsignature
      | cons b rest =>
          have hhere : position + endRecordSize ≤ size ∧ size ≤ position + endRecordSize + longestComment ∧
              endSignature.isPrefixOf (b :: rest) = true := ⟨by simp [hsize], by simp [hsize], hsignature⟩
          rw [List.nil_append, lastEndRecord?, if_pos hhere, lastEndRecord?_of_past (by simp [hsize])]
          rfl
  | cons b before ih =>
      rw [List.cons_append, lastEndRecord?, ih (by simp [hsize]; omega)]
      simp
      omega

theorem length_endRecord (count size place : Nat) : (endRecord count size place).length = endRecordSize := by
  simp [endRecord, endSignature, endRecordSize]

theorem ofBytes_eq_ok {tail : Bytes} {position shift : Nat} {record : EndRecord} {entries : List Entry}
    (hfound : lastEndRecord? bs.length 0 none bs = some (position, tail)) (hsize : endRecordSize ≤ bs.length)
    (hrecord : Reader.readAll readEndRecord tail = .ok record) (hdisk : record.disk = record.directoryDisk)
    (hposition : position = shift + record.directoryOffset + record.directorySize)
    (hentries : Reader.readAll (Reader.times record.entriesHere (readEntry shift))
      (bs.drop (record.directoryOffset + shift)) = .ok entries) :
    ofBytes bs = .ok ⟨bs, entries⟩ := by
  have hshift : position - record.directorySize - record.directoryOffset = shift := by omega
  unfold ofBytes
  rw [if_neg (Nat.not_lt.mpr hsize)]
  simp only [hfound, hrecord, hdisk, bne_self_eq_false, Bool.and_false, Bool.false_eq_true, ↓reduceIte, hshift, hentries,
    bind, Except.bind, pure, Except.pure]
  rw [if_neg (by omega)]

/-- The archive that is read from the written items behind other bytes. -/
def written (before : Bytes) (items : List Item) : Archive :=
  ⟨before ++ write items, entriesFrom before.length items⟩

theorem ofBytes_append_write (before : Bytes) (h : Fits items) :
    ofBytes (before ++ write items) = .ok (written before items) := by
  have hfew := h.few
  have hsmall := h.small
  simp only [write, List.length_append, length_endRecord] at hsmall
  have hbytes : before ++ write items = (before ++ records items) ++ directoryFrom 0 items ++
      endRecord items.length (directoryFrom 0 items).length (records items).length := by
    simp only [write, List.append_assoc]
  have hdirectory : (before ++ write items).drop ((records items).length + before.length) = directoryFrom 0 items ++
      endRecord items.length (directoryFrom 0 items).length (records items).length := by
    rw [hbytes, List.append_assoc, Nat.add_comm, ← List.length_append, List.drop_left]
  have hfound : lastEndRecord? (before ++ write items).length 0 none (before ++ write items) =
      some (0 + (before ++ records items ++ directoryFrom 0 items).length,
        endRecord items.length (directoryFrom 0 items).length (records items).length) := by
    rw [hbytes]
    exact lastEndRecord?_append rfl (by rw [List.length_append, length_endRecord, Nat.zero_add])
  have hrecord : Reader.readAll readEndRecord
      (endRecord items.length (directoryFrom 0 items).length (records items).length) =
        .ok ⟨0, 0, items.length, items.length, (directoryFrom 0 items).length, (records items).length⟩ := by
    rw [← List.append_nil (endRecord _ _ _)]
    exact (reads_endRecord (by omega) (by omega) (by omega)).readAll []
  have hentries : Reader.readAll (Reader.times items.length (readEntry before.length))
      ((before ++ write items).drop ((records items).length + before.length)) =
        .ok (entriesFrom before.length items) := by
    have hreads := @reads_directory items before.length 0 h.names (by omega)
    rw [Nat.zero_add] at hreads
    rw [hdirectory]
    exact hreads.readAll _
  refine ofBytes_eq_ok hfound ?_ hrecord rfl ?_ hentries
  · rw [hbytes, List.length_append, length_endRecord]
    exact Nat.le_add_left _ _
  · simp only [List.length_append]
    omega

/-! ## Reading entries -/

theorem entriesFrom_append (place : Nat) (front after : List Item) :
    entriesFrom place (front ++ after) =
      entriesFrom place front ++ entriesFrom (place + (records front).length) after := by
  induction front generalizing place with
  | nil => rfl
  | cons i front ih =>
      have hlength : (records (i :: front)).length = i.record.length + (records front).length := by simp [records]
      rw [List.cons_append, entriesFrom, ih, entriesFrom, List.cons_append, hlength, Nat.add_assoc]

theorem names_entriesFrom (place : Nat) (items : List Item) :
    (entriesFrom place items).map Entry.name = items.map Item.name := by
  induction items generalizing place with
  | nil => rfl
  | cons i items ih => rw [entriesFrom, List.map_cons, List.map_cons, ih]; rfl

theorem filter_entriesFrom_eq_nil {name : String} {place : Nat} (h : ∀ i ∈ items, i.name ≠ name) :
    (entriesFrom place items).filter (fun e => e.name = name) = [] := by
  refine List.filter_eq_nil_iff.mpr fun e he => ?_
  have hname : e.name ∈ items.map Item.name := names_entriesFrom place items ▸ List.mem_map_of_mem he
  obtain ⟨i, hi, heq⟩ := List.mem_map.mp hname
  simpa [heq] using h i hi

/-- The last of the items that have a name gives its entry. -/
theorem find?_written {before : Bytes} {front after : List Item} {i : Item} (h : ∀ later ∈ after, later.name ≠ i.name) :
    (written before (front ++ i :: after)).find? i.name = some (i.entry (before.length + (records front).length)) := by
  simp only [find?, written, entriesFrom_append, entriesFrom, List.filter_append]
  rw [List.filter_cons_of_pos (by simp [Item.entry]), filter_entriesFrom_eq_nil h,
    List.getLast?_append_of_ne_nil _ (by simp)]
  rfl

theorem Item.reads_header {i : Item} (hname : (Text.utf8 i.name).length < 0x10000) :
    localHeaderSize.Reads (localSignature ++ i.header) (30 + (Text.utf8 i.name).length) := by
  have hlayout : localSignature ++ i.header = localSignature ++ ((Bytes.lowWord 2 i.version.toNat ++
      Bytes.lowWord 2 flags ++ Bytes.lowWord 2 0 ++ Bytes.lowWord 2 i.time.toNat ++ Bytes.lowWord 2 i.date.toNat ++
      Bytes.lowWord 4 (crc32 i.content).toNat ++ Bytes.lowWord 4 i.content.length ++
      Bytes.lowWord 4 i.content.length) ++ (Bytes.lowWord 2 (Text.utf8 i.name).length ++ (Bytes.lowWord 2 0 ++ []))) := by
    simp only [header, List.append_assoc, List.append_nil]
  rw [hlayout]
  unfold localHeaderSize
  refine Reads.bind (reads_take _ rfl) (.unless (by simp) ?_)
  refine Reads.bind (reads_skip (by simp)) ?_
  refine Reads.bind (reads_number hname) ?_
  refine Reads.bind (reads_number (by decide)) ?_
  exact reads_pure _

theorem read_eq_ok {a : Archive} {name : String} {e : Entry} {header : Nat} {content : Bytes}
    (hfind : a.find? name = some e) (hplain : e.isEncrypted = false) (hmethod : e.method = 0)
    (hheader : Reader.readAll localHeaderSize (a.bytes.drop e.place) = .ok header)
    (hcontent : (a.bytes.drop (e.place + header)).take e.size = content) (hchecksum : crc32 content = e.checksum) :
    a.read name = .ok content := by
  unfold read
  simp only [hfind, hplain, hmethod, hheader, hcontent, hchecksum, expand, Bool.false_eq_true, ne_eq, not_true_eq_false,
    ↓reduceIte, bind, Except.bind, pure, Except.pure]

theorem read_written {before : Bytes} {front after : List Item} {i : Item} (hname : (Text.utf8 i.name).length < 0x10000)
    (h : ∀ later ∈ after, later.name ≠ i.name) : (written before (front ++ i :: after)).read i.name = .ok i.content := by
  obtain ⟨rest, hrest⟩ : ∃ rest, before ++ write (front ++ i :: after) =
      (before ++ records front) ++ ((localSignature ++ i.header) ++ (Text.utf8 i.name ++ (i.content ++ rest))) := by
    simp only [write, records, List.flatMap_append, List.flatMap_cons, Item.record, List.append_assoc]
    exact ⟨_, rfl⟩
  have hheader : Reader.readAll localHeaderSize
      ((before ++ write (front ++ i :: after)).drop (before.length + (records front).length)) =
        .ok (30 + (Text.utf8 i.name).length) := by
    rw [hrest, ← List.length_append, List.drop_left]
    exact (Item.reads_header hname).readAll _
  have hstart : before.length + (records front).length + (30 + (Text.utf8 i.name).length) =
      (before ++ records front ++ (localSignature ++ i.header) ++ Text.utf8 i.name).length := by
    simp [Item.length_header, localSignature]
    omega
  have hcontent : ((before ++ write (front ++ i :: after)).drop
      (before.length + (records front).length + (30 + (Text.utf8 i.name).length))).take i.content.length = i.content := by
    rw [hrest, ← List.append_assoc, ← List.append_assoc, hstart, List.drop_left, List.take_left]
  exact read_eq_ok (find?_written h) rfl rfl hheader hcontent rfl

theorem read_written_of_absent {before : Bytes} {name : String} (h : ∀ i ∈ items, i.name ≠ name) :
    (written before items).read name = .error .notFound := by
  have hfind : (written before items).find? name = none := by
    rw [find?, written, filter_entriesFrom_eq_nil h]
    rfl
  rw [read, hfind]
  rfl

theorem mem_classNames_iff {a : Archive} {name : String} :
    name ∈ a.classNames ↔ name ∈ a.entries.map Entry.name ∧ Text.EndsIn Resource.ending name := by
  rw [classNames, NameSet.mem_toList, NameSet.mem_ofList, List.mem_filter, Text.endsWith_iff]

theorem readArchive_of_contentOf {t : FileTree} {path : PathText} {before : Bytes}
    (hfile : t.contentOf path = .ok (before ++ write items)) (h : Fits items) :
    t.readArchive path = .ok (written before items) := by
  simp [FileTree.readArchive, hfile, ofBytes_append_write before h, Except.mapError]

/-- An archive of written items, whatever bytes stand before it, is opened. It lists the names with the ending, each of
them once, and gives the content of the last item of each name and a fault for a name that no item has. -/
theorem readArchive_gives_back_written {t : FileTree} {path : PathText} {before : Bytes}
    (hfile : t.contentOf path = .ok (before ++ write items)) (h : Fits items) :
    ∃ a, t.readArchive path = .ok a ∧ a.classNames.Nodup ∧
      (∀ name, name ∈ a.classNames ↔ (∃ i ∈ items, i.name = name) ∧ Text.EndsIn Resource.ending name) ∧
      (∀ front i after, items = front ++ i :: after → (∀ later ∈ after, later.name ≠ i.name) →
        a.readClass path i.name = .ok i.content) ∧
      ∀ name, (∀ i ∈ items, i.name ≠ name) →
        a.readClass path name = .error (.resourceUnavailable (path.shown ++ "!/" ++ name) (.entry .notFound)) := by
  refine ⟨written before items, readArchive_of_contentOf hfile h, ?_, fun name => ?_, ?_, fun name habsent => ?_⟩
  · exact NameSet.nodup_toList _
  · rw [mem_classNames_iff, written, names_entriesFrom, List.mem_map]
  · rintro front i after rfl hlast
    have hread : (written before (front ++ i :: after)).read i.name = .ok i.content :=
      read_written (h.names i (by simp)) hlast
    simp [readClass, hread]
  · simp [readClass, read_written_of_absent habsent]

/-- Two entries of one name, the first with an end record in its content, and a name beyond ASCII. -/
def twiceItems : List Item :=
  [{ name := "A.class", content := endRecord 0 0 0 }, { name := "é.txt", content := [1] },
    { name := "A.class", content := [2, 3], time := 7 }]

/-- Bytes that are an archive of their own, and one behind them. -/
def twiceTree : FileTree where
  workingDirectory := ["work"]
  nodes := [(["work", "app.jar"], .file (endRecord 0 0 0 ++ write twiceItems))]
  distinct := by decide

theorem readArchive_gives_back_written_twice :
    twiceTree.contentOf "app.jar" = .ok (endRecord 0 0 0 ++ write twiceItems) ∧ Fits twiceItems ∧
      ∃ a, twiceTree.readArchive "app.jar" = .ok a ∧
        (∀ name, name ∈ a.classNames ↔ (∃ i ∈ twiceItems, i.name = name) ∧ Text.EndsIn Resource.ending name) ∧
        a.readClass "app.jar" "A.class" = .ok [2, 3] ∧ a.readClass "app.jar" "é.txt" = .ok [1] ∧
        a.readClass "app.jar" "B.class" =
          .error (.resourceUnavailable "app.jar!/B.class" (.entry .notFound)) := by
  have hfile : twiceTree.contentOf "app.jar" = .ok (endRecord 0 0 0 ++ write twiceItems) := by decide +kernel
  have hfits : Fits twiceItems := ⟨by decide, by decide +kernel, by decide +kernel⟩
  obtain ⟨a, ha, -, hnames, hread, habsent⟩ := readArchive_gives_back_written hfile hfits
  exact ⟨hfile, hfits, a, ha, hnames, hread (twiceItems.take 2) _ [] rfl (by simp),
    hread (twiceItems.take 1) _ (twiceItems.drop 2) rfl (by decide +kernel), habsent "B.class" (by decide +kernel)⟩

end Archive

end MethodScout
