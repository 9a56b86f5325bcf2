import MethodScout.Proofs.Aggregation
import MethodScout.Proofs.Contents

/-!
# What scans say of what they read

A scan reads its resources first, and its outcome is a function of their contents. What is read, and so whether the scan
fails, depends on only two of the settings: the others decide which methods of the classes are reported.
-/

namespace MethodScout

/-- Scans under the two settings read the same resources. -/
structure Settings.ReadAlike (s s' : Settings) : Prop where
  includeNested : s'.includeNested = s.includeNested
  skipInvalid : s'.skipInvalid = s.skipInvalid

/-- The summaries have the same numbers of roots and of resources. -/
structure Summary.CountAlike (s s' : Summary) : Prop where
  roots : s'.roots = s.roots
  scanned : s'.scanned = s.scanned
  skipped : s'.skipped = s.skipped

namespace Scan

variable {t : FileTree} {paths : List PathText}

def Content.inspection (settings : Settings) (c : Content) : Inspection :=
  ⟨c.resource, Classification.ofBytes settings c.bytes⟩

theorem inspect_eq_fetch (settings : Settings) (task : Task) :
    inspect t settings task = (task.fetch t settings.skipInvalid).map (Content.inspection settings) := by
  unfold inspect Task.fetch Task.content
  cases task.reader with
  | error e => rfl
  | ok reader =>
      simp only
      cases reader.read t task.resource with
      | error e => rfl
      | ok bs =>
          simp only [Except.map, bind, Except.bind, Classification.ofBytes, Content.check]
          cases hdecode : ClassFile.decode bs with
          | ok file => simp [Content.inspection, Classification.ofBytes, hdecode, Except.map, pure, Except.pure]
          | error e =>
              cases settings.skipInvalid with
              | true => simp [Content.inspection, Classification.ofBytes, hdecode, Except.map, pure, Except.pure]
              | false => rfl

theorem mapM_inspect (settings : Settings) (listings : List Listing) :
    (tasks t listings).mapM (inspect t settings) =
      (fetchAll t settings.skipInvalid listings).map (List.map (Content.inspection settings)) := by
  rw [fetchAll, ← Attempt.mapM_map]
  congr 1
  funext task
  exact inspect_eq_fetch settings task

/-- A scan reads and checks its resources; what it says of them follows from their contents. -/
theorem scanPaths_eq_gather (settings : Settings) :
    scanPaths t settings paths = (gather t settings.includeNested settings.skipInvalid paths).map fun contents =>
      outcome paths.length (contents.map (Content.inspection settings)) := by
  cases hsource : Source.ofPaths t paths settings.includeNested with
  | error e => simp [scanPaths, gather, listPaths, hsource, bind, Except.bind, Except.map]
  | ok source =>
      cases hlistings : source.listings t with
      | error e => simp [scanPaths, Source.scan, gather, listPaths, hsource, hlistings, bind, Except.bind, Except.map]
      | ok listings =>
          have hpaths : listPaths t settings.includeNested paths = .ok listings := by
            rw [listPaths, hsource]
            exact hlistings
          simp only [scanPaths, Source.scan, gather, hsource, hlistings, hpaths, mapM_inspect, bind, Except.bind]
          cases fetchAll t settings.skipInvalid listings with
          | error e => rfl
          | ok contents =>
              rw [← length_of_listPaths hpaths]
              rfl

theorem scanPaths_eq_ok_iff_gather {settings : Settings} {out : Outcome} :
    scanPaths t settings paths = .ok out ↔
      ∃ contents, gather t settings.includeNested settings.skipInvalid paths = .ok contents ∧
        outcome paths.length (contents.map (Content.inspection settings)) = out := by
  rw [scanPaths_eq_gather, Attempt.map_eq_ok]

theorem scanPaths_eq_error_iff_gather {settings : Settings} {e : ScanFault} :
    scanPaths t settings paths = .error e ↔
      gather t settings.includeNested settings.skipInvalid paths = .error e := by
  rw [scanPaths_eq_gather, Attempt.map_eq_error]

/-! ## What is reported of the contents -/

/-- The classes of the resources that can be decoded. -/
def files (contents : List Content) : List ClassFile := contents.filterMap Content.file?

variable (settings : Settings) (roots : Nat) (contents : List Content)

theorem classified_inspections :
    classified (contents.map (Content.inspection settings)) =
      (files contents).map fun file => (ClassProfile.ofClassFile file).classify settings := by
  rw [classified, files, List.filterMap_map, List.map_filterMap]
  congr 1
  funext c
  unfold Content.file?
  simp only [Function.comp_apply, Content.inspection, Classification.ofBytes]
  cases ClassFile.decode c.bytes with
  | ok file => rfl
  | error e => rfl

theorem outcome_scanned :
    (outcome roots (contents.map (Content.inspection settings))).summary.scanned = contents.length := by
  simp [outcome]

theorem outcome_skipped :
    (outcome roots (contents.map (Content.inspection settings))).summary.skipped =
      contents.countP fun c => c.file?.isNone := by
  have hlength : contents.length =
      (contents.countP fun c => c.file?.isSome) + contents.countP fun c => c.file?.isNone := by
    rw [contents.length_eq_countP_add_countP fun c => c.file?.isSome]
    congr 2
    funext c
    cases c.file? with
    | none => rfl
    | some file => rfl
  simp only [outcome, classified_inspections, files, List.length_map, List.length_filterMap_eq_countP]
  omega

/-- Some class of the name has a method of the other name that is not left out and meets the rule. -/
def Reported (k : Category) (c x : String) : Prop :=
  ∃ file ∈ files contents, file.name = c ∧
    ∃ m ∈ file.methods, m.name = x ∧ settings.filter.excludes x = false ∧ k.Rule settings c m

theorem isOf_reported :
    (outcome roots (contents.map (Content.inspection settings))).report.IsOf (Reported settings contents) := by
  simp only [outcome, classified_inspections]
  apply (Report.isOf_ofClassifications _).congr
  intro k c x
  constructor
  · rintro ⟨_, hmem, rfl, hx⟩
    obtain ⟨file, hfile, rfl⟩ := List.mem_map.mp hmem
    exact ⟨file, hfile, rfl, ClassProfile.mem_classify.mp hx⟩
  · rintro ⟨file, hfile, rfl, hx⟩
    exact ⟨_, List.mem_map.mpr ⟨file, hfile, rfl⟩, rfl, ClassProfile.mem_classify.mpr hx⟩

theorem mem_files_iff_reaches {settings : Settings} {contents : List Content} {skipInvalid : Bool}
    (h : gather t settings.includeNested skipInvalid paths = .ok contents) {file : ClassFile} :
    file ∈ files contents ↔ Reaches t settings paths file := by
  simp only [files, List.mem_filterMap, Content.file?_eq_some_iff, (covers_of_gather h).mem_iff]
  constructor
  · rintro ⟨c, ⟨path, ⟨before, after, hpaths, hscannable, hlists, hbefore⟩, hgives⟩, hfile⟩
    exact ⟨before, path, after, c.resource, c.bytes, hpaths, hscannable, hlists, hbefore, hgives, hfile⟩
  · rintro ⟨before, path, after, r, bs, hpaths, hscannable, hlists, hbefore, hgives, hfile⟩
    exact ⟨⟨r, bs⟩, ⟨path, ⟨before, after, hpaths, hscannable, hlists, hbefore⟩, hgives⟩, hfile⟩

/-! ## Two scans that read the same -/

section

variable {s s' : Settings} {out out' : Outcome}

theorem scanPaths_eq_error_iff_of_readAlike (hs : s.ReadAlike s') {e : ScanFault} :
    scanPaths t s' paths = .error e ↔ scanPaths t s paths = .error e := by
  rw [scanPaths_eq_error_iff_gather, scanPaths_eq_error_iff_gather, hs.includeNested, hs.skipInvalid]

/-- Two scans that read the same have the same counts of what they read, and report on the same classes. -/
theorem exists_contents_of_readAlike (hs : s.ReadAlike s') (h : scanPaths t s paths = .ok out)
    (h' : scanPaths t s' paths = .ok out') :
    ∃ contents, out.report.IsOf (Reported s contents) ∧ out'.report.IsOf (Reported s' contents) ∧
      out.summary.CountAlike out'.summary := by
  obtain ⟨contents, hcontents, rfl⟩ := scanPaths_eq_ok_iff_gather.mp h
  obtain ⟨contents', hcontents', rfl⟩ := scanPaths_eq_ok_iff_gather.mp h'
  rw [hs.includeNested, hs.skipInvalid, hcontents] at hcontents'
  cases hcontents'
  refine ⟨contents, isOf_reported s _ contents, isOf_reported s' _ contents, rfl, ?_, ?_⟩
  · rw [outcome_scanned, outcome_scanned]
  · rw [outcome_skipped, outcome_skipped]

theorem Reported.imp {contents : List Content} {k : Category} {c x : String}
    (hfilter : s'.filter.excludes x = false → s.filter.excludes x = false)
    (hrule : ∀ m, k.Rule s' c m → k.Rule s c m) (h : Reported s' contents k c x) : Reported s contents k c x := by
  obtain ⟨file, hfile, hname, m, hm, hx, hkept, hm'⟩ := h
  exact ⟨file, hfile, hname, m, hm, hx, hfilter hkept, hrule m hm'⟩

end

end Scan

end MethodScout
