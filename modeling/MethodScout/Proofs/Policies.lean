import MethodScout.Proofs.Outcomes

/-!
# Skipping invalid classes or not

A class resource that cannot be decoded ends a scan or is skipped, as the settings say. The two kinds of scan agree when
nothing is skipped, and neither leaves out a resource in silence.
-/

namespace MethodScout

def Settings.aborting (s : Settings) : Settings := { s with skipInvalid := false }

def Settings.skipping (s : Settings) : Settings := { s with skipInvalid := true }

/-- The class resources that are taken from the roots at the paths can be decoded. -/
def FileTree.Decodable (t : FileTree) (includeNested : Bool) (paths : List PathText) : Prop :=
  ∀ path r bs, t.Takes includeNested paths path r → t.Gives path r bs → ∃ file, ClassFile.decode bs = .ok file

namespace Scan

variable {t : FileTree} {settings : Settings} {paths : List PathText} {out : Outcome}

theorem countP_isNone_eq_zero_iff {contents : List Content} :
    (contents.countP fun c => c.file?.isNone) = 0 ↔ ∀ c ∈ contents, c.Valid := by
  simp only [Content.Valid, ← Content.file?_eq_some_iff, List.countP_eq_zero, Option.isNone_iff_eq_none,
    Option.ne_none_iff_exists']

theorem aborting_eq_ok_iff :
    scanPaths t settings.aborting paths = .ok out ↔
      scanPaths t settings.skipping paths = .ok out ∧ out.summary.skipped = 0 := by
  rw [scanPaths_eq_ok_iff_gather, scanPaths_eq_ok_iff_gather]
  constructor
  · rintro ⟨contents, h, rfl⟩
    obtain ⟨h, hvalid⟩ := gather_eq_ok_iff.mp h
    refine ⟨⟨contents, h, rfl⟩, ?_⟩
    rw [outcome_skipped, countP_isNone_eq_zero_iff]
    simpa [Settings.aborting] using hvalid
  · rintro ⟨⟨contents, h, rfl⟩, hskipped⟩
    rw [outcome_skipped, countP_isNone_eq_zero_iff] at hskipped
    exact ⟨contents, gather_eq_ok_iff.mpr ⟨h, .inr hskipped⟩, rfl⟩

/-- The report of a scan that skips is that of the resources that can be decoded, and the others are counted. -/
theorem skipping_reports_valid (h : scanPaths t settings.skipping paths = .ok out) :
    ∃ contents, Covers t settings.includeNested paths contents ∧
      out.report = .ofClassifications (contents.filterMap fun c => (Classification.ofBytes settings c.bytes).toOption) ∧
      out.summary.skipped = contents.countP fun c => c.file?.isNone := by
  obtain ⟨contents, hcontents, rfl⟩ := scanPaths_eq_ok_iff_gather.mp h
  refine ⟨contents, covers_of_gather hcontents, ?_, outcome_skipped _ _ contents⟩
  simp only [outcome, classified, List.filterMap_map]
  rfl

theorem Covers.forall_valid_iff {includeNested : Bool} {contents : List Content}
    (h : Covers t includeNested paths contents) :
    (∀ c ∈ contents, c.Valid) ↔ t.Decodable includeNested paths := by
  constructor
  · intro hvalid path r bs htakes hgives
    exact hvalid ⟨r, bs⟩ ((h.mem_iff ⟨r, bs⟩).mpr ⟨path, htakes, hgives⟩)
  · intro hvalid c hc
    obtain ⟨path, htakes, hgives⟩ := (h.mem_iff c).mp hc
    exact hvalid path c.resource c.bytes htakes hgives

/-- A scan succeeds just when everything can be read and, unless invalid classes are skipped, decoded. -/
theorem exists_scanPaths_eq_ok_iff :
    (∃ out, scanPaths t settings paths = .ok out) ↔ t.Readable settings.includeNested paths ∧
      (settings.skipInvalid = true ∨ t.Decodable settings.includeNested paths) := by
  constructor
  · rintro ⟨out, h⟩
    obtain ⟨contents, h, -⟩ := scanPaths_eq_ok_iff_gather.mp h
    obtain ⟨hread, hvalid⟩ := gather_eq_ok_iff.mp h
    exact ⟨exists_gather_eq_ok.mp ⟨contents, hread⟩, hvalid.imp_right (covers_of_gather hread).forall_valid_iff.mp⟩
  · rintro ⟨hread, hvalid⟩
    obtain ⟨contents, hread⟩ := exists_gather_eq_ok.mpr hread
    have hvalid := hvalid.imp_right (covers_of_gather hread).forall_valid_iff.mpr
    exact ⟨_, scanPaths_eq_ok_iff_gather.mpr ⟨contents, gather_eq_ok_iff.mpr ⟨hread, hvalid⟩, rfl⟩⟩

theorem exists_skipping_eq_ok :
    (∃ out, scanPaths t settings.skipping paths = .ok out) ↔ t.Readable settings.includeNested paths := by
  rw [exists_scanPaths_eq_ok_iff]
  simp [Settings.skipping]

theorem exists_aborting_eq_ok :
    (∃ out, scanPaths t settings.aborting paths = .ok out) ↔
      t.Readable settings.includeNested paths ∧ t.Decodable settings.includeNested paths := by
  rw [exists_scanPaths_eq_ok_iff]
  simp [Settings.aborting]

/-- A scan of resources that can all be read fails because of one that cannot be decoded. -/
theorem exists_invalid_of_aborting_eq_error {contents : List Content} {e : ScanFault}
    (hread : gather t settings.includeNested true paths = .ok contents)
    (h : scanPaths t settings.aborting paths = .error e) :
    ∃ c ∈ contents, ∃ fault, ClassFile.decode c.bytes = .error fault ∧
      e = .decode (Resource.className c.resource) fault := by
  obtain ⟨listings, hlistings, hfetch⟩ := Attempt.bind_eq_ok.mp hread
  have hcontents := (fetchAll_eq_ok_iff.mp hfetch).1
  have herror : fetchAll t false listings = .error e := by
    have hgather : gather t settings.includeNested false paths = .error e := scanPaths_eq_error_iff_gather.mp h
    rw [gather, hlistings] at hgather
    exact hgather
  obtain ⟨task, htask, herror⟩ := Attempt.exists_error_of_mapM herror
  obtain ⟨c, hc⟩ := Attempt.exists_mapM_eq_ok.mp ⟨contents, hcontents⟩ task htask
  rw [Task.fetch, hc] at herror
  exact ⟨c, (Attempt.mem_of_mapM_eq_ok hcontents).mpr ⟨task, htask, hc⟩, Content.check_eq_error herror⟩

/-- If just one resource cannot be decoded, the fault is about that one. -/
theorem aborting_eq_error_of_one_invalid {path : PathText} {r : String} {bs : Bytes} {fault : DecodeFault}
    (hread : t.Readable settings.includeNested paths) (htakes : t.Takes settings.includeNested paths path r)
    (hgives : t.Gives path r bs) (hfault : ClassFile.decode bs = .error fault)
    (hothers : ∀ path' r' bs', t.Takes settings.includeNested paths path' r' → t.Gives path' r' bs' → r' ≠ r →
      ∃ file, ClassFile.decode bs' = .ok file) :
    scanPaths t settings.aborting paths = .error (.decode (Resource.className r) fault) := by
  obtain ⟨contents, hcontents⟩ := exists_gather_eq_ok.mpr hread
  have hcovers := covers_of_gather hcontents
  cases h : scanPaths t settings.aborting paths with
  | ok out =>
      obtain ⟨-, hvalid⟩ := exists_aborting_eq_ok.mp ⟨out, h⟩
      obtain ⟨file, hfile⟩ := hvalid path r bs htakes hgives
      rw [hfault] at hfile
      cases hfile
  | error e =>
      obtain ⟨c, hc, fault', hfault', rfl⟩ := exists_invalid_of_aborting_eq_error hcontents h
      have hresource : c.resource = r := by
        by_contra hne
        obtain ⟨path', htakes', hgives'⟩ := (hcovers.mem_iff c).mp hc
        obtain ⟨file, hfile⟩ := hothers path' c.resource c.bytes htakes' hgives' hne
        rw [hfault'] at hfile
        cases hfile
      -- no resource is there twice, so this is the content that cannot be decoded
      have hmem : ⟨r, bs⟩ ∈ contents := (hcovers.mem_iff ⟨r, bs⟩).mpr ⟨path, htakes, hgives⟩
      obtain rfl : c = ⟨r, bs⟩ := List.inj_on_of_nodup_map hcovers.once hc hmem hresource
      rw [hfault] at hfault'
      cases hfault'
      rfl

/-- A scan that ends at an invalid class and one that skips it agree when nothing is skipped. One that skips succeeds just
when everything can be read, and then reports on all that can be decoded and counts the rest. One that does not skip
succeeds just when everything can be decoded too, and a single class that cannot is named in its fault. -/
theorem aborting_and_skipping_agree (t : FileTree) (settings : Settings) (paths : List PathText) :
    (∀ out, scanPaths t settings.aborting paths = .ok out ↔
      scanPaths t settings.skipping paths = .ok out ∧ out.summary.skipped = 0) ∧
    ((∃ out, scanPaths t settings.skipping paths = .ok out) ↔ t.Readable settings.includeNested paths) ∧
    (∀ out, scanPaths t settings.skipping paths = .ok out → ∃ contents,
      Covers t settings.includeNested paths contents ∧
      out.report = .ofClassifications (contents.filterMap fun c => (Classification.ofBytes settings c.bytes).toOption) ∧
      out.summary.skipped = contents.countP fun c => c.file?.isNone) ∧
    ((∃ out, scanPaths t settings.aborting paths = .ok out) ↔
      t.Readable settings.includeNested paths ∧ t.Decodable settings.includeNested paths) ∧
    ∀ path r bs fault, t.Readable settings.includeNested paths → t.Takes settings.includeNested paths path r →
      t.Gives path r bs → ClassFile.decode bs = .error fault →
      (∀ path' r' bs', t.Takes settings.includeNested paths path' r' → t.Gives path' r' bs' → r' ≠ r →
        ∃ file, ClassFile.decode bs' = .ok file) →
      scanPaths t settings.aborting paths = .error (.decode (Resource.className r) fault) := by
  refine ⟨fun out => aborting_eq_ok_iff, exists_skipping_eq_ok, ?_, exists_aborting_eq_ok, ?_⟩
  · intro out h
    exact skipping_reports_valid h
  · intro path r bs fault hread htakes hgives hfault hothers
    exact aborting_eq_error_of_one_invalid hread htakes hgives hfault hothers

/-- A directory with a class and half of another one, and a directory with a whole class in the place of that. -/
def halfTree : FileTree where
  workingDirectory := ["work"]
  nodes := [(["work", "app"], .directory), (["work", "app", "Job.class"], .file jobClass),
    (["work", "app", "Half.class"], .file [0xCA, 0xFE]), (["work", "old"], .directory),
    (["work", "old", "Half.class"], .file jobClass)]
  distinct := by decide

theorem aborting_and_skipping_agree_half :
    (∃ out, scanPaths halfTree (Settings.skipping {}) ["app", "old"] = .ok out ∧ out.summary.skipped = 1 ∧
      ¬scanPaths halfTree (Settings.aborting {}) ["app", "old"] = .ok out) ∧
    scanPaths halfTree (Settings.aborting {}) ["app", "old"] = .error (.decode "Half" (.truncated ⟨0, 4⟩)) := by
  obtain ⟨hagree, -, -, -, hone⟩ := aborting_and_skipping_agree halfTree {} ["app", "old"]
  have hgather : gather halfTree false true ["app", "old"] =
      .ok [⟨"Half.class", [0xCA, 0xFE]⟩, ⟨"Job.class", jobClass⟩] := by decide +kernel
  have hmem := (covers_of_gather hgather).mem_iff
  have hread : halfTree.Readable false ["app", "old"] := exists_gather_eq_ok.mp ⟨_, hgather⟩
  constructor
  · have hrun : (scanPaths halfTree (Settings.skipping {}) ["app", "old"]).toOption.map (·.summary.skipped) = some 1 := by
      decide +kernel
    obtain ⟨out, h, hskipped⟩ := Attempt.toOption_map_eq_some.mp hrun
    refine ⟨out, h, hskipped, ?_⟩
    intro habort
    rw [((hagree out).mp habort).2] at hskipped
    cases hskipped
  · obtain ⟨path, htakes, hgives⟩ := (hmem ⟨"Half.class", [0xCA, 0xFE]⟩).mp List.mem_cons_self
    have hfault : ClassFile.decode [0xCA, 0xFE] = .error (.truncated ⟨0, 4⟩) := by decide +kernel
    apply hone path "Half.class" [0xCA, 0xFE] _ hread htakes hgives hfault
    intro path' r' bs' htakes' hgives' hne
    have hjob := (hmem ⟨r', bs'⟩).mpr ⟨path', htakes', hgives'⟩
    simp only [List.mem_cons, Content.mk.injEq, hne, false_and, false_or, List.not_mem_nil, or_false] at hjob
    obtain ⟨-, rfl⟩ := hjob
    have hvalid : (ClassFile.decode jobClass).isOk = true := by decide +kernel
    cases hfile : ClassFile.decode jobClass with
    | ok file => exact ⟨file, rfl⟩
    | error e =>
        rw [hfile] at hvalid
        cases hvalid

end Scan

end MethodScout
