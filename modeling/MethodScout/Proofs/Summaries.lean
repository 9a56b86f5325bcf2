import Mathlib.Data.Set.Card
import MethodScout.Proofs.Outcomes
import MethodScout.Proofs.ReportParts

/-!
# The figures of a summary

A summary counts resources when they are listed, classifications when they are read and classes when they are merged. Its
figures fit together all the same: what is listed is decoded or skipped, and every class that is reported was decoded and
has a method.
-/

namespace MethodScout

theorem encard_of_nodup {α : Type} {P : α → Prop} {xs : List α} (hxs : xs.Nodup) (h : ∀ x, x ∈ xs ↔ P x) :
    {x | P x}.encard = xs.length := by
  classical
  have hset : {x | P x} = (xs.toFinset : Set α) := by
    ext x
    simp [h]
  rw [hset, Set.encard_coe_eq_coe_finsetCard, List.toFinset_card_of_nodup hxs]

/-! ## Classes and methods of a report -/

namespace Report

theorem size_classes_le (cs : List Classification) : (ofClassifications cs).classes.size ≤ cs.length := by
  have hof := (isOf_ofClassifications cs).classes
  have hsubset : (ofClassifications cs).classes.names ⊆ cs.map Classification.className := by
    intro c hc
    obtain ⟨names, hnames⟩ := NameMap.mem_names.mp hc
    obtain ⟨x, hx⟩ := hof.nonempty c names hnames
    obtain ⟨k, cl, hcl, hname, -⟩ := (hof.mem_iff c x).mp ⟨names, hnames, hx⟩
    exact List.mem_map.mpr ⟨cl, hcl, hname⟩
  rw [← NameMap.length_names, ← List.length_map Classification.className]
  exact (NameMap.nodup_names _).length_le_of_subset hsubset

variable {r : Report} {P : Category → String → String → Prop}

theorem IsOf.size_classes_le_methodCount (h : r.IsOf P) : r.classes.size ≤ r.methodCount := by
  have hsubset : r.classes.names ⊆ r.classes.pairs.map Prod.fst := by
    intro c hc
    obtain ⟨names, hnames⟩ := NameMap.mem_names.mp hc
    obtain ⟨x, hx⟩ := h.classes.nonempty c names hnames
    exact List.mem_map.mpr ⟨(c, x), NameMap.mem_pairs.mpr ⟨names, hnames, hx⟩, rfl⟩
  rw [methodCount_eq_length_pairs, ← NameMap.length_names, ← List.length_map Prod.fst]
  exact r.classes.nodup_names.length_le_of_subset hsubset

theorem methodCount_of_size_eq_zero (h : r.classes.size = 0) : r.methodCount = 0 := by
  rw [methodCount, List.eq_nil_of_length_eq_zero h]
  rfl

end Report

/-! ## Resources of a source -/

namespace Source

variable {t : FileTree} {s : Source} {listings : List Listing}

theorem mem_resources_iff_lists (h : s.listings t = .ok listings) {r : String} :
    r ∈ listings.flatMap Listing.resources ↔
      Resource.isScannable s.includeNested r = true ∧ ∃ root ∈ s.roots, root.Lists t r := by
  rw [List.mem_flatMap]
  constructor
  · intro hr
    obtain ⟨l, hl, hr⟩ := hr
    obtain ⟨i, hi⟩ := List.mem_iff_getElem?.mp hl
    obtain ⟨hscannable, hlists, -⟩ := (mem_listings_iff h hi r).mp hr
    refine ⟨hscannable, l.root, ?_, hlists⟩
    rw [← roots_of_listingsAfter h]
    exact List.mem_map_of_mem hl
  · intro hr
    obtain ⟨hscannable, root, hroot, hlists⟩ := hr
    exact exists_listing h hroot hlists hscannable

end Source

namespace Scan

/-- The resource is listed, and what its root has for it can be decoded. -/
def Decodes (t : FileTree) (listings : List Listing) (r : String) : Prop :=
  ∃ l ∈ listings, r ∈ l.resources ∧ ∃ reader bs file, l.root.reader t = .ok reader ∧ reader.read t r = .ok bs ∧
    ClassFile.decode bs = .ok file

variable {t : FileTree} {settings : Settings} {s : Source} {listings : List Listing} {contents : List Content}
  {out : Outcome}

theorem scan_eq_ok (h : s.scan t settings = .ok out) :
    ∃ listings contents, s.listings t = .ok listings ∧ fetchAll t settings.skipInvalid listings = .ok contents ∧
      out = outcome listings.length (contents.map (Content.inspection settings)) := by
  obtain ⟨listings, hlistings, h⟩ := Attempt.bind_eq_ok.mp h
  obtain ⟨inspections, hinspections, h⟩ := Attempt.bind_eq_ok.mp h
  rw [mapM_inspect] at hinspections
  obtain ⟨contents, hcontents, rfl⟩ := Attempt.map_eq_ok.mp hinspections
  cases h
  exact ⟨listings, contents, hlistings, hcontents, rfl⟩

theorem mem_contents_iff {skipInvalid : Bool} (h : fetchAll t skipInvalid listings = .ok contents) {c : Content} :
    c ∈ contents ↔ ∃ l ∈ listings, c.resource ∈ l.resources ∧
      ∃ reader, l.root.reader t = .ok reader ∧ reader.read t c.resource = .ok c.bytes := by
  rw [Attempt.mem_of_mapM_eq_ok (fetchAll_eq_ok_iff.mp h).1]
  constructor
  · intro hc
    obtain ⟨task, htask, hc⟩ := hc
    obtain ⟨l, hl, r, hr, rfl⟩ := mem_tasks.mp htask
    obtain ⟨reader, hreader, hbytes, hresource⟩ := Task.content_eq_ok_iff.mp hc
    cases hresource
    exact ⟨l, hl, hr, reader, hreader, hbytes⟩
  · intro hc
    obtain ⟨l, hl, hr, reader, hreader, hbytes⟩ := hc
    exact ⟨_, mem_tasks.mpr ⟨l, hl, c.resource, hr, rfl⟩, Task.content_eq_ok_iff.mpr ⟨reader, hreader, hbytes, rfl⟩⟩

/-- The resources that were decoded are no more than those that were read, and the rest was skipped. -/
theorem length_files_add_skipped (settings : Settings) (roots : Nat) (contents : List Content) :
    (files contents).length + (outcome roots (contents.map (Content.inspection settings))).summary.skipped =
      contents.length := by
  have hle : (files contents).length ≤ contents.length := List.length_filterMap_le _ _
  simp only [outcome, classified_inspections, List.length_map]
  omega

theorem encard_decodes {skipInvalid : Bool} (hlistings : s.listings t = .ok listings)
    (hcontents : fetchAll t skipInvalid listings = .ok contents) :
    {r | Decodes t listings r}.encard = (files contents).length := by
  have hresources := resources_of_contents (fetchAll_eq_ok_iff.mp hcontents).1
  have honce := (Source.enumerates_of_listings hlistings).once
  rw [← hresources] at honce
  have hlength : (files contents).length = ((contents.filter fun c => c.file?.isSome).map Content.resource).length := by
    rw [files, List.length_filterMap_eq_countP, List.length_map, List.countP_eq_length_filter]
  rw [hlength]
  apply encard_of_nodup (honce.sublist (List.filter_sublist.map _))
  intro r
  simp only [List.mem_map, List.mem_filter, mem_contents_iff hcontents, Option.isSome_iff_exists,
    Content.file?_eq_some_iff]
  constructor
  · intro h
    obtain ⟨c, ⟨⟨l, hl, hr, reader, hreader, hbytes⟩, file, hfile⟩, rfl⟩ := h
    exact ⟨l, hl, hr, reader, c.bytes, file, hreader, hbytes, hfile⟩
  · intro h
    obtain ⟨l, hl, hr, reader, bs, file, hreader, hbytes, hfile⟩ := h
    exact ⟨⟨r, bs⟩, ⟨⟨l, hl, hr, reader, hreader, hbytes⟩, file, hfile⟩, rfl⟩

end Scan

/-- The figures of a summary: the roots, the names of all scannable resources under them, those of them that were decoded,
and the classes and methods of the report. -/
structure Summary.Accounts (t : FileTree) (s : Source) (listings : List Listing) (report : Report) (sum : Summary) :
    Prop where
  roots : sum.roots = s.roots.length
  scanned : {r | Resource.isScannable s.includeNested r = true ∧ ∃ root ∈ s.roots, root.Lists t r}.encard = sum.scanned
  skipped_le : sum.skipped ≤ sum.scanned
  decoded : {r | Scan.Decodes t listings r}.encard = (sum.scanned - sum.skipped : Nat)
  classes_le_decoded : sum.classes ≤ sum.scanned - sum.skipped
  classes_le_methods : sum.classes ≤ sum.methods
  classes_eq_zero_iff : sum.classes = 0 ↔ sum.methods = 0
  methods : {p : String × String | ∃ names, report.classes.get? p.1 = some names ∧ p.2 ∈ names}.encard = sum.methods

namespace Scan

variable {t : FileTree} {settings : Settings} {s : Source} {listings : List Listing} {contents : List Content}
  {out : Outcome}

theorem accounts_of_contents {skipInvalid : Bool} (hlistings : s.listings t = .ok listings)
    (hcontents : fetchAll t skipInvalid listings = .ok contents)
    (hout : out = outcome listings.length (contents.map (Content.inspection settings))) :
    out.summary.Accounts t s listings out.report := by
  have hscanned : out.summary.scanned = contents.length := by rw [hout, outcome_scanned]
  have hskipped : (files contents).length + out.summary.skipped = contents.length := by
    rw [hout, length_files_add_skipped]
  have hdecoded : out.summary.scanned - out.summary.skipped = (files contents).length := by omega
  have hreport : out.report = .ofClassifications (classified (contents.map (Content.inspection settings))) := by
    rw [hout, outcome]
  have hclasses : out.summary.classes = out.report.classes.size := by rw [hout, outcome]
  have hmethods : out.summary.methods = out.report.methodCount := by rw [hout, outcome]
  have hle : out.report.classes.size ≤ out.report.methodCount := by
    rw [hreport]
    exact (Report.isOf_ofClassifications _).size_classes_le_methodCount
  refine ⟨?_, ?_, by omega, ?_, ?_, ?_, ?_, ?_⟩
  · rw [hout, ← Source.roots_of_listingsAfter hlistings, List.length_map]
    rfl
  · have hresources := resources_of_contents (fetchAll_eq_ok_iff.mp hcontents).1
    rw [hscanned, ← List.length_map Content.resource, hresources]
    exact encard_of_nodup (Source.enumerates_of_listings hlistings).once fun r =>
      Source.mem_resources_iff_lists hlistings
  · rw [hdecoded]
    exact encard_decodes hlistings hcontents
  · have hsize := Report.size_classes_le (classified (contents.map (Content.inspection settings)))
    rw [← hreport, classified_inspections, List.length_map] at hsize
    omega
  · omega
  · rw [hclasses, hmethods]
    exact ⟨Report.methodCount_of_size_eq_zero, fun h => by omega⟩
  · rw [hmethods, Report.methodCount_eq_length_pairs]
    exact encard_of_nodup out.report.classes.nodup_pairs fun p => NameMap.mem_pairs

/-- When a scan succeeds, the figures of its summary fit together: no more classifications come in than resources were
listed, and the summary counts the roots, all resources, those that were decoded, the classes and the methods. -/
theorem scan_summary_accounts (t : FileTree) (settings : Settings) (s : Source) (out : Outcome)
    (h : s.scan t settings = .ok out) :
    ∃ listings inspections, s.listings t = .ok listings ∧
      (tasks t listings).mapM (inspect t settings) = .ok inspections ∧
      out.summary.scanned = (listings.map fun l => l.resources.length).sum ∧
      (classified inspections).length ≤ out.summary.scanned ∧
      out.summary.skipped = out.summary.scanned - (classified inspections).length ∧
      out.summary.Accounts t s listings out.report ∧
      ∀ paths includeNested, Source.ofPaths t paths includeNested = .ok s → out.summary.roots = paths.length := by
  obtain ⟨listings, contents, hlistings, hcontents, hout⟩ := scan_eq_ok h
  have haccounts := accounts_of_contents hlistings hcontents hout
  have hscanned : out.summary.scanned = contents.length := by rw [hout, outcome_scanned]
  have hskipped := length_files_add_skipped settings listings.length contents
  rw [← hout] at hskipped
  refine ⟨listings, contents.map (Content.inspection settings), hlistings, ?_, ?_, ?_, ?_, haccounts, ?_⟩
  · rw [mapM_inspect, hcontents]
    rfl
  · rw [hscanned, ← List.length_map Content.resource, resources_of_contents (fetchAll_eq_ok_iff.mp hcontents).1,
      List.length_flatMap]
  · rw [classified_inspections, List.length_map]
    omega
  · rw [classified_inspections, List.length_map]
    omega
  · intro paths includeNested hsource
    obtain ⟨roots, hroots, hsource⟩ := Attempt.bind_eq_ok.mp hsource
    cases hsource
    rw [haccounts.roots, (Attempt.mapM_eq_ok.mp hroots).length_eq]

/-- A directory with a class and half of one, and a directory with the same class under its name and another one. -/
def twiceTree : FileTree where
  workingDirectory := ["work"]
  nodes := [(["work", "app"], .directory), (["work", "app", "Job.class"], .file jobClass),
    (["work", "app", "Half.class"], .file [0xCA, 0xFE]), (["work", "lib"], .directory),
    (["work", "lib", "Job.class"], .file jobClass), (["work", "lib", "Tool.class"], .file jobClass)]
  distinct := by decide

def twiceSource : Source := ⟨[.directory "app", .directory "lib"], false⟩

theorem scan_summary_accounts_merged :
    Source.ofPaths twiceTree ["app", "lib"] false = .ok twiceSource ∧
      ∃ out listings, twiceSource.scan twiceTree { skipInvalid := true } = .ok out ∧ out.summary = ⟨2, 3, 1, 1, 1⟩ ∧
        twiceSource.listings twiceTree = .ok listings ∧ out.summary.Accounts twiceTree twiceSource listings out.report := by
  have hsource : Source.ofPaths twiceTree ["app", "lib"] false = .ok twiceSource := by decide +kernel
  have hrun : (twiceSource.scan twiceTree { skipInvalid := true }).toOption.map Outcome.summary =
      some ⟨2, 3, 1, 1, 1⟩ := by decide +kernel
  obtain ⟨out, h, hsummary⟩ := Attempt.toOption_map_eq_some.mp hrun
  obtain ⟨listings, -, hlistings, -, -, -, -, haccounts, -⟩ := scan_summary_accounts _ _ _ _ h
  exact ⟨hsource, out, listings, h, hsummary, hlistings, haccounts⟩

end Scan

end MethodScout
