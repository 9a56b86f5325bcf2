import MethodScout.Proofs.DirectoryListings
import MethodScout.Proofs.Outcomes
import MethodScout.Proofs.StoredArchives

/-!
# Archives that hold a directory

A directory lists the files that its tree has below it, an archive the names in its table. If the archive has the files of
the directory as its entries, it lists what the directory lists and the few files that the directory overlooks; if there
are none of these, a scan cannot tell the two apart.
-/

namespace MethodScout

/-! ## Names with the ending -/

namespace PathText

/-- The bytes end in those of a text. -/
def EndsIn (tail : String) (p : PathText) : Prop := ∃ before : PathText, p = before ++ ofText tail

/-- A text ends in another one that begins with a byte of its own if its bytes do. -/
theorem endsIn_ofText_iff {text tail : String} {b : UInt8} {bs : Bytes} (htail : Text.utf8 tail = b :: bs)
    (hlow : b.toNat < 0x80) : EndsIn tail text ↔ Text.EndsIn tail text := by
  constructor
  · rintro ⟨before, h⟩
    have hcut : (ofText text).bytes = before.bytes ++ b :: bs := by
      rw [h, bytes_append, ← htail]
      rfl
    obtain ⟨front, -, hfront, -⟩ := Text.Utf8.exists_texts_of_cut hlow hcut
    refine ⟨front, ofText_inj.mp ?_⟩
    rw [h, ofText_append, bytes_injective (show before.bytes = (ofText front).bytes from hfront)]
  · rintro ⟨front, rfl⟩
    exact ⟨front, ofText_append front tail⟩

end PathText

theorem Resource.endsIn_ending_iff {name : PathText} : name.EndsIn ending ↔ name = ending ∨ IsClassName name := by
  constructor
  · rintro ⟨stem, rfl⟩
    by_cases hstem : stem = ""
    · exact .inl (by rw [hstem, PathText.empty_append])
    · exact .inr ⟨stem, hstem, rfl⟩
  · rintro (rfl | ⟨stem, -, rfl⟩)
    · exact ⟨"", (PathText.empty_append _).symm⟩
    · exact ⟨stem, rfl⟩

namespace Path

/-- What ends in a text without slashes does so in its last name. -/
theorem endsIn_append_slash {tail : String} {folder last : PathText} (htail : slash ∉ (PathText.ofText tail).bytes) :
    (folder ++ "/" ++ last).EndsIn tail ↔ last.EndsIn tail := by
  constructor
  · rintro ⟨before, heq⟩
    have hbytes : (folder.bytes ++ [slash]) ++ last.bytes = before.bytes ++ (PathText.ofText tail).bytes := by
      simpa using congrArg PathText.bytes heq
    rcases List.append_eq_append_iff.mp hbytes with ⟨rest, -, hlast⟩ | ⟨rest, hfolder, hrest⟩
    · exact ⟨⟨rest⟩, PathText.bytes_injective hlast⟩
    · -- the ending would reach over the slash
      cases hrest' : rest.getLast? with
      | none =>
          rw [List.getLast?_eq_none_iff.mp hrest', List.nil_append] at hrest
          exact ⟨"", PathText.bytes_injective hrest.symm⟩
      | some c =>
          have hc : (folder.bytes ++ [slash]).getLast? = some c := by
            rw [hfolder, List.getLast?_append, hrest', Option.some_or]
          have hslash : c = slash := by simpa [eq_comm] using hc
          rw [hrest] at htail
          exact absurd (List.mem_append_left _ (hslash ▸ List.mem_of_getLast? hrest')) htail
  · rintro ⟨before, rfl⟩
    exact ⟨folder ++ "/" ++ before, (PathText.append_assoc _ _ _).symm⟩

theorem endsIn_ofNames {way : List PathText} {tail : String} (hne : way ≠ []) (htail : slash ∉ (PathText.ofText tail).bytes) :
    (ofNames way).EndsIn tail ↔ ∃ last, way.getLast? = some last ∧ last.EndsIn tail := by
  obtain ⟨last, hlast, hway | ⟨folder, hway⟩⟩ := exists_folder_of_way hne
  · simp [hlast, hway]
  · simp [hlast, hway, endsIn_append_slash htail]

end Path

namespace FileTree

variable {t : FileTree} {dir : Location} {way : List PathText} {path : PathText} {name : String} {used : Nat} {a : Archive}

theorem Descends.not_endsIn_slash {node : Node} (h : t.Descends dir way node) (ht : t.WellNamed)
    (hname : PathText.ofText name = Path.ofNames way) : ¬Text.EndsIn "/" name := by
  rw [← PathText.endsIn_ofText_iff (b := Path.slash) rfl (by decide), hname]
  rintro ⟨folder, heq⟩
  have hslash := Path.endsInSlash_ofNames h.ne_nil (h.isName ht) ""
  simp [PathText.empty_append, heq, Path.endsInSlash] at hslash

/-- Only directories and files are below the directory. -/
def Plain (t : FileTree) (dir : Location) : Prop := ∀ way target, ¬t.Descends dir way (.link target)

/-- The archive has just the files that are below the directory, each by the bytes of its path from there, apart from
entries for directories, and nothing else is below it. -/
structure IsCopy (t : FileTree) (dir : Location) (a : Archive) : Prop where
  plain : t.Plain dir
  names : ∀ p : PathText, (∃ name ∈ a.entries.map Archive.Entry.name, ¬Text.EndsIn "/" name ∧ p = name) ↔
    ∃ way content, p = Path.ofNames way ∧ t.Descends dir way (.file content)
  contents : ∀ way content name, t.Descends dir way (.file content) → PathText.ofText name = Path.ofNames way →
    a.read name = .ok content

/-- A file with the ending that the directory does not list: the ending is all of its name, or its path is longer than the
system allows. -/
def Overlooks (t : FileTree) (path : PathText) (dir : Location) (name : String) : Prop :=
  ∃ way content, PathText.ofText name = Path.ofNames way ∧ t.Descends dir way (.file content) ∧
    (way.getLast? = some (Resource.ending : PathText) ∨
      (∃ last, way.getLast? = some last ∧ Resource.IsClassName last) ∧ pathLimit < (Path.join path name).bytes.length)

theorem IsCopy.hasClass_iff (h : t.IsCopy dir a) {links : Nat} {content : Bytes} :
    t.HasClass dir way links content ↔
      links = 0 ∧ t.Descends dir way (.file content) ∧ ∃ last, way.getLast? = some last ∧ Resource.IsClassName last := by
  constructor
  · rintro ⟨⟨node, hnode, hprovides⟩, hclass⟩
    cases hprovides with
    | file => exact ⟨rfl, hnode, hclass⟩
    | link _ _ => exact absurd hnode (h.plain _ _)
  · rintro ⟨rfl, hnode, hclass⟩
    exact ⟨⟨_, hnode, .file⟩, hclass⟩

/-- The names of entries are UTF-8, and so are those of the files. -/
theorem IsCopy.isTextual (h : t.IsCopy dir a) {content : Bytes} (hway : t.Descends dir way (.file content)) :
    Path.IsTextual way := by
  obtain ⟨name, -, -, hname⟩ := (h.names _).mpr ⟨way, content, rfl, hway⟩
  exact Path.isTextual_of_ofNames hname

theorem IsCopy.mem_classFiles_iff (h : t.IsCopy dir a) (ht : t.WellNamed) (hopens : t.Opens path used dir)
    (hinput : Path.isStandardInput path = false) :
    name ∈ t.classFiles path ↔ (Path.join path name).bytes.length ≤ pathLimit ∧
      ∃ way content, PathText.ofText name = Path.ofNames way ∧ t.Descends dir way (.file content) ∧
        ∃ last, way.getLast? = some last ∧ Resource.IsClassName last := by
  simp only [hopens.classFiles_eq ht, List.mem_map, hopens.mem_classWays_iff ht hinput, h.hasClass_iff]
  constructor
  · rintro ⟨way, ⟨hshort, _, content, -, -, hway, hclass⟩, rfl⟩
    have hname := Path.ofText_resource (h.isTextual hway)
    exact ⟨by rwa [hname], way, content, hname, hway, hclass⟩
  · rintro ⟨hshort, way, content, hname, hway, hclass⟩
    refine ⟨way, ⟨by rwa [← hname], 0, content, hopens.few, rfl, hway, hclass⟩, PathText.ofText_inj.mp ?_⟩
    rw [Path.ofText_resource (h.isTextual hway), hname]

theorem IsCopy.mem_classNames_iff (h : t.IsCopy dir a) :
    name ∈ a.classNames ↔ ∃ way content, PathText.ofText name = Path.ofNames way ∧
      t.Descends dir way (.file content) ∧ ∃ last, way.getLast? = some last ∧ last.EndsIn Resource.ending := by
  have hending_iff : (PathText.ofText name).EndsIn Resource.ending ↔ Text.EndsIn Resource.ending name :=
    PathText.endsIn_ofText_iff (b := Path.dot) rfl (by decide)
  rw [Archive.mem_classNames_iff, ← hending_iff]
  constructor
  · rintro ⟨hentry, hending⟩
    have hfile : ¬Text.EndsIn "/" name := by
      obtain ⟨stem, rfl⟩ := hending_iff.mp hending
      rintro ⟨folder, heq⟩
      have hlast := congrArg (fun text => text.toList.getLast?) heq
      simp [Resource.ending] at hlast
    obtain ⟨way, content, hname, hway⟩ := (h.names name).mp ⟨name, hentry, hfile, rfl⟩
    rw [hname] at hending
    exact ⟨way, content, hname, hway, (Path.endsIn_ofNames hway.ne_nil (by decide)).mp hending⟩
  · rintro ⟨way, content, hname, hway, hending⟩
    obtain ⟨name', hentry, -, hname'⟩ := (h.names _).mpr ⟨way, content, rfl, hway⟩
    obtain rfl : name = name' := PathText.ofText_inj.mp (hname.trans hname')
    rw [hname]
    exact ⟨hentry, (Path.endsIn_ofNames hway.ne_nil (by decide)).mpr hending⟩

/-- The archive lists what the directory lists and what it overlooks. -/
theorem IsCopy.mem_classNames_iff_or (h : t.IsCopy dir a) (ht : t.WellNamed) (hopens : t.Opens path used dir)
    (hinput : Path.isStandardInput path = false) :
    name ∈ a.classNames ↔ name ∈ t.classFiles path ∨ t.Overlooks path dir name := by
  rw [h.mem_classNames_iff, h.mem_classFiles_iff ht hopens hinput]
  constructor
  · rintro ⟨way, content, hname, hway, last, hlast, hending⟩
    rcases Resource.endsIn_ending_iff.mp hending with rfl | hclass
    · exact .inr ⟨way, content, hname, hway, .inl hlast⟩
    · rcases Nat.lt_or_ge pathLimit (Path.join path name).bytes.length with hlong | hshort
      · exact .inr ⟨way, content, hname, hway, .inr ⟨⟨last, hlast, hclass⟩, hlong⟩⟩
      · exact .inl ⟨hshort, way, content, hname, hway, last, hlast, hclass⟩
  · rintro (⟨-, way, content, hname, hway, last, hlast, hclass⟩ | ⟨way, content, hname, hway, hoverlooked⟩)
    · exact ⟨way, content, hname, hway, last, hlast, Resource.endsIn_ending_iff.mpr (.inr hclass)⟩
    · rcases hoverlooked with hlast | ⟨⟨last, hlast, hclass⟩, -⟩
      · exact ⟨way, content, hname, hway, _, hlast, Resource.endsIn_ending_iff.mpr (.inl rfl)⟩
      · exact ⟨way, content, hname, hway, last, hlast, Resource.endsIn_ending_iff.mpr (.inr hclass)⟩

theorem IsCopy.not_overlooks (h : t.IsCopy dir a) (ht : t.WellNamed) (hopens : t.Opens path used dir)
    (hinput : Path.isStandardInput path = false) (hname : name ∈ t.classFiles path) : ¬t.Overlooks path dir name := by
  obtain ⟨hshort, way, content, hname, hway, last, hlast, stem, hstem, rfl⟩ :=
    (h.mem_classFiles_iff ht hopens hinput).mp hname
  rintro ⟨way', content', hname', hway', hending | ⟨-, hlong⟩⟩
  · rw [← Path.ofNames_inj (hway.isName ht) (hway'.isName ht) (hname.symm.trans hname'), hlast, Option.some.injEq] at hending
    exact hstem (PathText.bytes_eq_nil_iff.mp (by simpa using congrArg PathText.bytes hending))
  · omega

/-- What the directory lists is read alike from both. -/
theorem IsCopy.exists_read_eq_ok (h : t.IsCopy dir a) (ht : t.WellNamed) (hopens : t.Opens path used dir)
    (hinput : Path.isStandardInput path = false) (hname : name ∈ t.classFiles path) (file : PathText) :
    ∃ content, (RootReader.directory path).read t name = .ok content ∧
      (RootReader.archive file a).read t name = .ok content := by
  obtain ⟨hshort, way, content, hname, hway, -⟩ := (h.mem_classFiles_iff ht hopens hinput).mp hname
  refine ⟨content, ?_, ?_⟩
  · rw [hname] at hshort
    rw [RootReader.read_directory_eq_ok_iff, hname, hopens.look_join_iff ht hway]
    exact ⟨hshort, 0, hopens.few, .file⟩
  · change a.readClass file _ = _
    rw [Archive.readClass, h.contents way content name hway hname]

end FileTree

/-! ## Copies that are written -/

def Node.isLink : Node → Bool
  | .link _ => true
  | _ => false

theorem Archive.exists_last_item {items : List Item} {name : String} (h : ∃ i ∈ items, i.name = name) :
    ∃ front i after, items = front ++ i :: after ∧ i.name = name ∧ ∀ later ∈ after, later.name ≠ i.name := by
  induction items with
  | nil => simp at h
  | cons i items ih =>
      by_cases hlater : ∃ later ∈ items, later.name = name
      · obtain ⟨front, last, after, rfl, hname, hlast⟩ := ih hlater
        exact ⟨i :: front, last, after, rfl, hname, hlast⟩
      · have hname : i.name = name := by simpa [hlater] using h
        exact ⟨[], i, items, rfl, hname, fun later hmem heq => hlater ⟨later, hmem, heq.trans hname⟩⟩

namespace FileTree

variable {t : FileTree} {dir : Location} {way : List PathText} {path : PathText} {items : List Archive.Item}

theorem plain_iff : t.Plain dir ↔ ∀ way ∈ t.below dir, (t.get? (dir ++ way)).any Node.isLink = false := by
  constructor
  · intro h way hway
    cases hnode : t.get? (dir ++ way) with
    | none => rfl
    | some node =>
        cases node with
        | link target => exact absurd ((descends_iff_mem_below (by simp)).mpr ⟨hway, hnode⟩) (h way target)
        | _ => rfl
  · intro h way target hway
    have hlink := h way (hway.mem_below (by simp))
    simp [hway.get?, Node.isLink] at hlink

instance (t : FileTree) (dir : Location) : Decidable (t.Plain dir) := decidable_of_iff _ plain_iff.symm

/-- The files below a directory, by their paths from it. -/
def filesBelow (t : FileTree) (dir : Location) : List (PathText × Bytes) :=
  (t.below dir).filterMap fun way =>
    match t.get? (dir ++ way) with
    | some (.file content) => some (Path.ofNames way, content)
    | _ => none

theorem mem_filesBelow_iff {p : PathText} {content : Bytes} :
    (p, content) ∈ t.filesBelow dir ↔ ∃ way, p = Path.ofNames way ∧ t.Descends dir way (.file content) := by
  have hfile : Node.file content ≠ .directory := by simp
  simp only [filesBelow, List.mem_filterMap, descends_iff_mem_below hfile]
  constructor
  · rintro ⟨way, hway, h⟩
    split at h
    · cases h
      exact ⟨way, rfl, hway, ‹_›⟩
    · cases h
  · rintro ⟨way, rfl, hway, hnode⟩
    exact ⟨way, hway, by simp [hnode]⟩

/-- An archive that is written from the files of a directory is a copy of it. A file may be written more than once, and
directories may have entries of their own. -/
theorem isCopy_written (before : Bytes) (ht : t.WellNamed) (hfits : Archive.Fits items) (hplain : t.Plain dir)
    (hitems : ∀ i ∈ items, Text.endsWith "/" i.name = true ∨ ((i.name : PathText), i.content) ∈ t.filesBelow dir)
    (hfiles : ∀ f ∈ t.filesBelow dir, ∃ i ∈ items, (i.name : PathText) = f.1) :
    t.IsCopy dir (Archive.written before items) where
  plain := hplain
  names p := by
    rw [Archive.written, Archive.names_entriesFrom]
    constructor
    · rintro ⟨name, hname, hslash, rfl⟩
      obtain ⟨i, hi, rfl⟩ := List.mem_map.mp hname
      rw [← Text.endsWith_iff] at hslash
      obtain ⟨way, hname, hway⟩ := mem_filesBelow_iff.mp ((hitems i hi).resolve_left hslash)
      exact ⟨way, i.content, hname, hway⟩
    · rintro ⟨way, content, rfl, hway⟩
      obtain ⟨i, hi, hname⟩ := hfiles _ (mem_filesBelow_iff.mpr ⟨way, rfl, hway⟩)
      exact ⟨i.name, List.mem_map_of_mem hi, hway.not_endsIn_slash ht hname, hname.symm⟩
  contents way content name hway hname := by
    obtain ⟨i, hi, hwritten⟩ := hfiles _ (mem_filesBelow_iff.mpr ⟨way, rfl, hway⟩)
    have hsame : i.name = name := PathText.ofText_inj.mp (hwritten.trans hname.symm)
    obtain ⟨front, i, after, rfl, hlast, hlater⟩ := Archive.exists_last_item ⟨i, hi, hsame⟩
    have hi : i ∈ front ++ i :: after := by simp
    have hslash : ¬Text.endsWith "/" i.name = true := by
      rw [Text.endsWith_iff, hlast]
      exact hway.not_endsIn_slash ht hname
    obtain ⟨way', hname', hway'⟩ := mem_filesBelow_iff.mp ((hitems i hi).resolve_left hslash)
    -- every item of the name has the content of the one file of that name
    have hways : way' = way :=
      Path.ofNames_inj (hway'.isName ht) (hway.isName ht) (by rw [← hname', hlast, hname])
    have hcontent := hway'.get?
    rw [hways, hway.get?, Option.some.injEq, Node.file.injEq] at hcontent
    rw [← hlast, hcontent]
    exact Archive.read_written (hfits.names i hi) hlater

theorem not_overlooks_of_below {name : String} (h : ∀ way ∈ t.below dir,
    way.getLast? ≠ some (Resource.ending : PathText) ∧ (Path.join path (Path.ofNames way)).bytes.length ≤ pathLimit) :
    ¬t.Overlooks path dir name := by
  rintro ⟨way, content, hname, hway, hlast | ⟨-, hlong⟩⟩
  · exact (h way (hway.mem_below (by simp))).1 hlast
  · rw [hname] at hlong
    exact absurd (h way (hway.mem_below (by simp))).2 (Nat.not_le_of_lt hlong)

end FileTree

/-! ## Scans of one root -/

theorem Source.scannable_of_classes {t : FileTree} {root : Root} {includeNested : Bool} {names : List String}
    (h : root.classes t = .ok names) : scannable t includeNested root =
      .ok (NameSet.ofList (names.filter (Resource.isScannable includeNested))).toList := by
  rw [scannable, h, Except.map]

namespace Scan

variable {t : FileTree} {includeNested skipInvalid : Bool} {path path' : PathText} {root root' : Root}
  {names names' : List String} {reader reader' : RootReader}

theorem gather_singleton (hroot : Root.ofPath t path = .ok root)
    (hnames : Source.scannable t includeNested root = .ok names) :
    gather t includeNested skipInvalid [path] =
      names.mapM fun r => Task.fetch t skipInvalid ⟨root, root.reader t, r⟩ := by
  have hlistings : listPaths t includeNested [path] = .ok [⟨root, names, []⟩] := by
    refine listPaths_eq_ok_iff.mpr ⟨[root], Attempt.mapM_eq_ok.mpr (.cons hroot .nil), ?_⟩
    simp [Source.listingsAfter, hnames, bind, Except.bind, pure, Except.pure]
  rw [gather, hlistings]
  simp [bind, Except.bind, fetchAll, tasks, List.mapM_map, Function.comp_def]

/-- Roots that list the same resources and give the same contents are scanned alike. -/
theorem scanPaths_singleton_congr (hroot : Root.ofPath t path = .ok root) (hroot' : Root.ofPath t path' = .ok root')
    (hnames : root.classes t = .ok names) (hnames' : root'.classes t = .ok names')
    (hreader : root.reader t = .ok reader) (hreader' : root'.reader t = .ok reader')
    (hmem : ∀ r, r ∈ names ↔ r ∈ names') (hread : ∀ r ∈ names, reader.read t r = reader'.read t r)
    (settings : Settings) : scanPaths t settings [path] = scanPaths t settings [path'] := by
  have hsame : NameSet.ofList (names'.filter (Resource.isScannable settings.includeNested)) =
      NameSet.ofList (names.filter (Resource.isScannable settings.includeNested)) :=
    NameSet.ext_mem fun r => by simp [hmem]
  rw [scanPaths_eq_gather, scanPaths_eq_gather, gather_singleton hroot (Source.scannable_of_classes hnames),
    gather_singleton hroot' (Source.scannable_of_classes hnames'), hsame]
  congr 1
  refine Attempt.mapM_congr fun r hr => ?_
  have hr : r ∈ names := by
    rw [NameSet.mem_toList, NameSet.mem_ofList] at hr
    exact (List.mem_filter.mp hr).1
  simp only [Task.fetch, Task.content, hreader, hreader', hread r hr]

end Scan

namespace Root

variable {t : FileTree} {dir : Location} {path file : PathText} {used : Nat} {a : Archive}

theorem ofPath_of_readArchive (h : t.readArchive file = .ok a) : ofPath t file = .ok (.archive file) := by
  cases hcontent : t.contentOf file with
  | error e => cases e <;> simp [FileTree.readArchive, hcontent] at h
  | ok content =>
      have hlook := FileTree.contentOf_eq_ok_iff.mp hcontent
      simp [ofPath, FileTree.pathExists, FileTree.isDirectory, hlook, h, Except.isOk, Except.toBool]

/-- An archive that has the files of a directory lists what the directory lists and, besides, just the files that it
overlooks. If there are none, scans of the directory and of the archive have the same result. -/
theorem copy_scanned_alike (ht : t.WellNamed) (hopens : t.Opens path used dir)
    (hinput : Path.isStandardInput path = false) (harchive : t.readArchive file = .ok a) (hcopy : t.IsCopy dir a) :
    ofPath t path = .ok (.directory path) ∧ ofPath t file = .ok (.archive file) ∧
      ∃ names entries, (directory path).classes t = .ok names ∧ (archive file).classes t = .ok entries ∧
        (∀ name, name ∈ entries ↔ name ∈ names ∨ t.Overlooks path dir name) ∧
        (∀ name ∈ names, ¬t.Overlooks path dir name) ∧
        ((∀ name, ¬t.Overlooks path dir name) →
          ∀ settings, scanPaths t settings [path] = scanPaths t settings [file]) := by
  have hdirectory := ofPath_of_opens hopens ht
  have hfile := ofPath_of_readArchive harchive
  have hentries : (archive file).classes t = .ok a.classNames := by rw [classes, harchive]
  have hreader : (archive file).reader t = .ok (.archive file a) := by rw [reader, harchive, Except.map]
  have hmem (name : String) : name ∈ a.classNames ↔ name ∈ t.classFiles path ∨ t.Overlooks path dir name :=
    hcopy.mem_classNames_iff_or ht hopens hinput
  refine ⟨hdirectory, hfile, t.classFiles path, a.classNames, rfl, hentries, hmem,
    fun name hname => hcopy.not_overlooks ht hopens hinput hname, fun hnone settings => ?_⟩
  have hsame (name : String) : name ∈ t.classFiles path ↔ name ∈ a.classNames := by simp [hmem, hnone]
  refine Scan.scanPaths_singleton_congr hdirectory hfile rfl hentries rfl hreader hsame (fun name hname => ?_) settings
  obtain ⟨content, hread, hread'⟩ := hcopy.exists_read_eq_ok ht hopens hinput hname file
  rw [hread, hread']

/-- An entry for a folder that is named like a class, a class in it that is written twice, and something else. -/
def folderItems : List Archive.Item :=
  [{ name := "Jobs.class/", content := [] }, { name := "Jobs.class/.Job.class", content := Scan.jobClass },
    { name := "notes", content := [1] }, { name := "Jobs.class/.Job.class", content := Scan.jobClass }]

/-- The directory that the items come from, and their archive. -/
def folderTree : FileTree where
  workingDirectory := ["work"]
  nodes := [(["work", "app"], .directory), (["work", "app", "Jobs.class"], .directory),
    (["work", "app", "Jobs.class", ".Job.class"], .file Scan.jobClass), (["work", "app", "notes"], .file [1]),
    (["work", "app.jar"], .file (Archive.write folderItems))]
  distinct := by decide

theorem copy_scanned_alike_folder :
    folderTree.WellNamed ∧ folderTree.Opens "app" 0 ["work", "app"] ∧ Path.isStandardInput "app" = false ∧
      ∃ a names entries, folderTree.readArchive "app.jar" = .ok a ∧ folderTree.IsCopy ["work", "app"] a ∧
        (directory "app").classes folderTree = .ok names ∧ (archive "app.jar").classes folderTree = .ok entries ∧
        (∀ name, name ∈ entries ↔ name ∈ names ∨ folderTree.Overlooks "app" ["work", "app"] name) ∧
        (∀ name, ¬folderTree.Overlooks "app" ["work", "app"] name) ∧
        ∀ settings, scanPaths folderTree settings ["app"] = scanPaths folderTree settings ["app.jar"] := by
  have hnamed : folderTree.WellNamed := by decide +kernel
  have happ : folderTree.get? (["work"] ++ ["app"]) = some .directory := by decide
  have hopens : folderTree.Opens "app" 0 ["work", "app"] :=
    ⟨.enter (by decide) happ (by simp) .done, happ, ⟨by decide, by decide, by decide⟩, by decide⟩
  have hfits : Archive.Fits folderItems := ⟨by decide, by decide +kernel, by decide +kernel⟩
  have harchive : folderTree.readArchive "app.jar" = .ok (Archive.written [] folderItems) :=
    Archive.readArchive_of_contentOf (by decide +kernel) hfits
  have hcopy : folderTree.IsCopy ["work", "app"] (Archive.written [] folderItems) :=
    FileTree.isCopy_written [] hnamed hfits (by decide +kernel) (by decide +kernel) (by decide +kernel)
  have hnone (name : String) : ¬folderTree.Overlooks "app" ["work", "app"] name :=
    FileTree.not_overlooks_of_below (by decide +kernel)
  obtain ⟨-, -, names, entries, hnames, hentries, hmem, -, hscan⟩ :=
    copy_scanned_alike hnamed hopens (by decide) harchive hcopy
  exact ⟨hnamed, hopens, by decide, _, names, entries, harchive, hcopy, hnames, hentries, hmem, hnone, hscan hnone⟩

def jobItems : List Archive.Item := [{ name := "Job.class", content := Scan.jobClass }]

/-- A directory whose name stands for standard input, and an archive of its class. -/
def dashCopyTree : FileTree where
  workingDirectory := ["work"]
  nodes := [(["work", "-"], .directory), (["work", "-", "Job.class"], .file Scan.jobClass),
    (["work", "job.jar"], .file (Archive.write jobItems))]
  distinct := by decide

/-- A copy of a directory of which nothing is overlooked, with another result of its scan. -/
theorem dash_copy_scanned_apart :
    dashCopyTree.WellNamed ∧ dashCopyTree.Opens "-" 0 ["work", "-"] ∧
      (∃ a, dashCopyTree.readArchive "job.jar" = .ok a ∧ dashCopyTree.IsCopy ["work", "-"] a) ∧
      (∀ name, ¬dashCopyTree.Overlooks "-" ["work", "-"] name) ∧
      scanPaths dashCopyTree {} ["-"] ≠ scanPaths dashCopyTree {} ["job.jar"] := by
  have hnamed : dashCopyTree.WellNamed := by decide +kernel
  have hdash : dashCopyTree.get? (["work"] ++ ["-"]) = some .directory := by decide
  have hopens : dashCopyTree.Opens "-" 0 ["work", "-"] :=
    ⟨.enter (by decide) hdash (by simp) .done, hdash, ⟨by decide, by decide, by decide⟩, by decide⟩
  have hfits : Archive.Fits jobItems := ⟨by decide, by decide +kernel, by decide +kernel⟩
  have harchive : dashCopyTree.readArchive "job.jar" = .ok (Archive.written [] jobItems) :=
    Archive.readArchive_of_contentOf (by decide +kernel) hfits
  have hcopy : dashCopyTree.IsCopy ["work", "-"] (Archive.written [] jobItems) :=
    FileTree.isCopy_written [] hnamed hfits (by decide +kernel) (by decide +kernel) (by decide +kernel)
  have hnone (name : String) : ¬dashCopyTree.Overlooks "-" ["work", "-"] name :=
    FileTree.not_overlooks_of_below (by decide +kernel)
  exact ⟨hnamed, hopens, ⟨_, harchive, hcopy⟩, hnone, by decide +kernel⟩

end Root

end MethodScout
