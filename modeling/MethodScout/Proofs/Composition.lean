import MethodScout.Proofs.Outcomes
import MethodScout.Proofs.ReportParts

/-!
# Scans of more roots

Roots that stand after others add the resources that none of those lists. So the report of a longer list of roots is put
together from that of the first ones and that of what the others add.
-/

namespace MethodScout

instance (t : FileTree) (path : PathText) (r : String) : Decidable (t.Lists path r) :=
  decidable_of_iff (∃ names ∈ (Root.ofPath t path >>= Root.classes t).toOption, r ∈ names) (by
    cases hroot : Root.ofPath t path with
    | error e => simp [FileTree.Lists, hroot, bind, Except.bind, Except.toOption]
    | ok root =>
        cases hnames : root.classes t with
        | error e => simp [FileTree.Lists, hroot, hnames, bind, Except.bind, Except.toOption]
        | ok names => simp [FileTree.Lists, hroot, hnames, bind, Except.bind, Except.toOption])

/-- The listing without the resources that fail a test. -/
def Listing.keep (p : String → Bool) (l : Listing) : Listing :=
  { l with resources := l.resources.filter p }

/-- The listing without the resources that some root at the paths lists. -/
def Listing.unlisted (t : FileTree) (paths : List PathText) : Listing → Listing :=
  Listing.keep fun r => decide (∀ path ∈ paths, ¬t.Lists path r)

/-- No resource is scanned that roots of both lists have. -/
def FileTree.Apart (t : FileTree) (includeNested : Bool) (paths others : List PathText) : Prop :=
  ∀ r, Resource.isScannable includeNested r = true → (∃ path ∈ paths, t.Lists path r) → ¬∃ path ∈ others, t.Lists path r

theorem FileTree.Apart.symm {t : FileTree} {includeNested : Bool} {paths others : List PathText}
    (h : t.Apart includeNested paths others) : t.Apart includeNested others paths := by
  intro r hscannable hothers hpaths
  exact h r hscannable hpaths hothers

namespace Source

variable {t : FileTree} {includeNested : Bool} {seen : List String} {listings : List Listing}

/-! ## Listing more roots -/

theorem listingsAfter_append_eq_ok_iff {roots roots' : List Root} :
    listingsAfter t includeNested seen (roots ++ roots') = .ok listings ↔
      ∃ first rest, listingsAfter t includeNested seen roots = .ok first ∧
        listingsAfter t includeNested (seen ++ first.flatMap Listing.resources) roots' = .ok rest ∧
        listings = first ++ rest := by
  induction roots generalizing seen listings with
  | nil => simp [listingsAfter]
  | cons root roots ih =>
      constructor
      · intro h
        obtain ⟨names, tail, hnames, htail, rfl⟩ := listingsAfter_cons_eq_ok h
        obtain ⟨first, rest, hfirst, hrest, rfl⟩ := ih.mp htail
        refine ⟨listingAfter seen root names :: first, rest, ?_, ?_, rfl⟩
        · rw [listingsAfter_cons hnames, hfirst]
          rfl
        · simpa using hrest
      · rintro ⟨all, rest, hall, hrest, rfl⟩
        obtain ⟨names, first, hnames, hfirst, rfl⟩ := listingsAfter_cons_eq_ok hall
        rw [List.flatMap_cons, ← List.append_assoc] at hrest
        rw [List.cons_append, listingsAfter_cons hnames, ih.mpr ⟨first, rest, hfirst, hrest, rfl⟩]
        rfl

/-- When more has been seen before, the resources among it are left out and all else stays. -/
theorem tasks_of_seen {roots : List Root} {seen' : List String} {listings' : List Listing} {p : String → Bool}
    (hseen : ∀ r, Resource.isScannable includeNested r = true → (r ∈ seen' ↔ r ∈ seen ∨ p r = false))
    (h : listingsAfter t includeNested seen roots = .ok listings)
    (h' : listingsAfter t includeNested seen' roots = .ok listings') :
    Scan.tasks t listings' = Scan.tasks t (listings.map (Listing.keep p)) := by
  -- both runs go through the same roots, and what they have seen differs by the same resources at each of them
  induction roots generalizing seen seen' listings listings' with
  | nil =>
      cases h
      cases h'
      rfl
  | cons root roots ih =>
      obtain ⟨names, rest, hnames, hrest, rfl⟩ := listingsAfter_cons_eq_ok h
      obtain ⟨names', rest', hnames', hrest', rfl⟩ := listingsAfter_cons_eq_ok h'
      rw [hnames] at hnames'
      cases hnames'
      have hresources : (listingAfter seen' root names).resources =
          ((listingAfter seen root names).keep p).resources := by
        simp only [listingAfter, Listing.keep, List.filter_filter]
        apply List.filter_congr
        intro r hr
        have hr := hseen r ((mem_scannable_iff hnames r).mp hr).2
        cases hp : p r <;> simp [hr, hp]
      have htail : Scan.tasks t rest' = Scan.tasks t (rest.map (Listing.keep p)) := by
        refine ih ?_ hrest hrest'
        intro r hscannable
        simp only [List.mem_append, mem_listingAfter, hseen r hscannable]
        tauto
      simp only [Scan.tasks, List.map_cons, List.flatMap_cons, hresources] at htail ⊢
      rw [htail]
      rfl

end Source

namespace Scan

variable {t : FileTree} {includeNested skipInvalid : Bool} {paths others : List PathText}
  {listings listings' : List Listing}

/-- The resources of further roots are those that they have and no root before them lists. -/
theorem listPaths_append (h : listPaths t includeNested paths = .ok listings)
    (h' : listPaths t includeNested others = .ok listings') :
    ∃ all, listPaths t includeNested (paths ++ others) = .ok all ∧
      tasks t all = tasks t listings ++ tasks t (listings'.map (Listing.unlisted t paths)) := by
  obtain ⟨roots, hroots, hlistings⟩ := listPaths_eq_ok_iff.mp h
  obtain ⟨roots', hroots', hlistings'⟩ := listPaths_eq_ok_iff.mp h'
  obtain ⟨rest, hrest⟩ : ∃ rest,
      Source.listingsAfter t includeNested ([] ++ listings.flatMap Listing.resources) roots' = .ok rest :=
    Source.listingsAfter_eq_ok_iff.mpr (Source.listingsAfter_eq_ok_iff.mp ⟨listings', hlistings'⟩)
  refine ⟨listings ++ rest, listPaths_eq_ok_iff.mpr ⟨roots ++ roots', ?_, ?_⟩, ?_⟩
  · exact Attempt.mapM_append_eq_ok.mpr ⟨roots, roots', hroots, hroots', rfl⟩
  · exact Source.listingsAfter_append_eq_ok_iff.mpr ⟨listings, rest, hlistings, hrest, rfl⟩
  · have htasks : tasks t rest = tasks t (listings'.map (Listing.unlisted t paths)) := by
      refine Source.tasks_of_seen ?_ hlistings' hrest
      intro r hscannable
      simp [mem_resources_iff h, hscannable]
    rw [← htasks]
    simp [tasks]

theorem gather_append_eq_ok_iff {contents : List Content} :
    gather t includeNested skipInvalid (paths ++ others) = .ok contents ↔
      ∃ first rest listings, gather t includeNested skipInvalid paths = .ok first ∧
        listPaths t includeNested others = .ok listings ∧
        fetchAll t skipInvalid (listings.map (Listing.unlisted t paths)) = .ok rest ∧ contents = first ++ rest := by
  constructor
  · intro h
    obtain ⟨all, hall, h⟩ := Attempt.bind_eq_ok.mp h
    have hlisted := exists_listPaths_eq_ok.mp ⟨all, hall⟩
    obtain ⟨listings, hlistings⟩ : ∃ listings, listPaths t includeNested paths = .ok listings :=
      exists_listPaths_eq_ok.mpr fun path hpath => hlisted path (List.mem_append_left _ hpath)
    obtain ⟨listings', hlistings'⟩ : ∃ listings, listPaths t includeNested others = .ok listings :=
      exists_listPaths_eq_ok.mpr fun path hpath => hlisted path (List.mem_append_right _ hpath)
    -- listing has one result, so the tasks at hand are those of the two parts
    obtain ⟨all', hall', htasks⟩ := listPaths_append hlistings hlistings'
    rw [hall] at hall'
    cases hall'
    rw [fetchAll, htasks] at h
    obtain ⟨first, rest, hfirst, hrest, rfl⟩ := Attempt.mapM_append_eq_ok.mp h
    exact ⟨first, rest, listings', Attempt.bind_eq_ok.mpr ⟨listings, hlistings, hfirst⟩, hlistings', hrest, rfl⟩
  · rintro ⟨first, rest, listings', hfirst, hlistings', hrest, rfl⟩
    obtain ⟨listings, hlistings, hfirst⟩ := Attempt.bind_eq_ok.mp hfirst
    obtain ⟨all, hall, htasks⟩ := listPaths_append hlistings hlistings'
    refine Attempt.bind_eq_ok.mpr ⟨all, hall, ?_⟩
    rw [fetchAll, htasks]
    exact Attempt.mapM_append_eq_ok.mpr ⟨first, rest, hfirst, hrest, rfl⟩

theorem fetchAll_unlisted_of_subset (h : listPaths t includeNested others = .ok listings)
    (hsubset : ∀ path ∈ others, path ∈ paths) :
    fetchAll t skipInvalid (listings.map (Listing.unlisted t paths)) = .ok [] := by
  have htasks : tasks t (listings.map (Listing.unlisted t paths)) = [] := by
    simp only [tasks, List.flatMap_eq_nil_iff, List.map_eq_nil_iff, List.forall_mem_map]
    intro l hl
    apply List.filter_eq_nil_iff.mpr
    intro r hr
    obtain ⟨-, path, hpath, hlists⟩ := (mem_resources_iff h).mp (List.mem_flatMap.mpr ⟨l, hl, hr⟩)
    simpa using ⟨path, hsubset path hpath, hlists⟩
  rw [fetchAll, htasks]
  rfl

/-- Roots that are there already add nothing. -/
theorem gather_append_of_subset {contents : List Content} (hsubset : ∀ path ∈ others, path ∈ paths) :
    gather t includeNested skipInvalid (paths ++ others) = .ok contents ↔
      gather t includeNested skipInvalid paths = .ok contents := by
  rw [gather_append_eq_ok_iff]
  constructor
  · rintro ⟨first, rest, listings, hfirst, hlistings, hrest, rfl⟩
    rw [fetchAll_unlisted_of_subset hlistings hsubset, Except.ok.injEq] at hrest
    rw [← hrest, List.append_nil]
    exact hfirst
  · intro h
    obtain ⟨listings, hlistings, -⟩ := Attempt.bind_eq_ok.mp h
    have hlisted := exists_listPaths_eq_ok.mp ⟨listings, hlistings⟩
    obtain ⟨listings', hlistings'⟩ : ∃ listings, listPaths t includeNested others = .ok listings :=
      exists_listPaths_eq_ok.mpr fun path hpath => hlisted path (hsubset path hpath)
    exact ⟨contents, [], listings', h, hlistings', fetchAll_unlisted_of_subset hlistings' hsubset,
      (List.append_nil contents).symm⟩

theorem map_unlisted_of_apart (h : listPaths t includeNested others = .ok listings)
    (hapart : t.Apart includeNested paths others) : listings.map (Listing.unlisted t paths) = listings := by
  conv_rhs => rw [← List.map_id listings]
  apply List.map_congr_left
  intro l hl
  have hall : ∀ r ∈ l.resources, decide (∀ path ∈ paths, ¬t.Lists path r) = true := by
    intro r hr
    obtain ⟨hscannable, hothers⟩ := (mem_resources_iff h).mp (List.mem_flatMap.mpr ⟨l, hl, hr⟩)
    apply decide_eq_true
    intro path hpath hlists
    exact hapart r hscannable ⟨path, hpath, hlists⟩ hothers
  simp only [Listing.unlisted, Listing.keep, List.filter_eq_self.mpr hall]
  rfl

theorem gather_append_of_apart {contents : List Content} (hapart : t.Apart includeNested paths others) :
    gather t includeNested skipInvalid (paths ++ others) = .ok contents ↔
      ∃ first rest, gather t includeNested skipInvalid paths = .ok first ∧
        gather t includeNested skipInvalid others = .ok rest ∧ contents = first ++ rest := by
  rw [gather_append_eq_ok_iff]
  constructor
  · rintro ⟨first, rest, listings, hfirst, hlistings, hrest, rfl⟩
    rw [map_unlisted_of_apart hlistings hapart] at hrest
    exact ⟨first, rest, hfirst, Attempt.bind_eq_ok.mpr ⟨listings, hlistings, hrest⟩, rfl⟩
  · rintro ⟨first, rest, hfirst, hrest, rfl⟩
    obtain ⟨listings, hlistings, hrest⟩ := Attempt.bind_eq_ok.mp hrest
    rw [← map_unlisted_of_apart hlistings hapart] at hrest
    exact ⟨first, rest, listings, hfirst, hlistings, hrest, rfl⟩

/-! ## Reports of more roots -/

variable {settings : Settings} {out : Outcome}

/-- The report of more roots is the union of the first ones' and of that on what the others add. -/
theorem scanPaths_append_isUnion (h : scanPaths t settings (paths ++ others) = .ok out) :
    ∃ first listings inspections, scanPaths t settings paths = .ok first ∧
      listPaths t settings.includeNested others = .ok listings ∧
      (tasks t (listings.map (Listing.unlisted t paths))).mapM (inspect t settings) = .ok inspections ∧
      out.report.IsUnion first.report (.ofClassifications (classified inspections)) := by
  obtain ⟨contents, hcontents, rfl⟩ := scanPaths_eq_ok_iff_gather.mp h
  obtain ⟨first, rest, listings, hfirst, hlistings, hrest, rfl⟩ := gather_append_eq_ok_iff.mp hcontents
  refine ⟨_, listings, rest.map (Content.inspection settings),
    scanPaths_eq_ok_iff_gather.mpr ⟨first, hfirst, rfl⟩, hlistings, ?_, ?_⟩
  · rw [mapM_inspect, hrest]
    rfl
  · simp only [outcome, List.map_append, classified, List.filterMap_append]
    exact Report.ofClassifications_append _ _

theorem scanPaths_append_of_subset (hsubset : ∀ path ∈ others, path ∈ paths) :
    scanPaths t settings (paths ++ others) = .ok out ↔
      ∃ first, scanPaths t settings paths = .ok first ∧
        out = { first with summary := { first.summary with roots := paths.length + others.length } } := by
  simp only [scanPaths_eq_ok_iff_gather, gather_append_of_subset hsubset, List.length_append]
  constructor
  · rintro ⟨contents, hcontents, rfl⟩
    exact ⟨_, ⟨contents, hcontents, rfl⟩, rfl⟩
  · rintro ⟨_, ⟨contents, hcontents, rfl⟩, rfl⟩
    exact ⟨contents, hcontents, rfl⟩

theorem scanPaths_append_comm (hapart : t.Apart settings.includeNested paths others)
    (h : scanPaths t settings (paths ++ others) = .ok out) : scanPaths t settings (others ++ paths) = .ok out := by
  obtain ⟨contents, hcontents, rfl⟩ := scanPaths_eq_ok_iff_gather.mp h
  obtain ⟨first, rest, hfirst, hrest, rfl⟩ := (gather_append_of_apart hapart).mp hcontents
  have hswapped := (gather_append_of_apart hapart.symm).mpr ⟨rest, first, hrest, hfirst, rfl⟩
  refine scanPaths_eq_ok_iff_gather.mpr ⟨rest ++ first, hswapped, ?_⟩
  rw [List.length_append, List.length_append, Nat.add_comm]
  exact outcome_perm _ (List.perm_append_comm.map _)

/-- The report of some roots and others after them is the union of the report of the first ones and of that on the
resources of the others that no root of the first ones lists. So nothing that was reported is lost; roots that are there
already change nothing but the number of roots; and the order of lists of roots without a common resource makes no
difference. -/
theorem scanPaths_append_composes (t : FileTree) (settings : Settings) (paths others : List PathText) :
    (∀ out, scanPaths t settings (paths ++ others) = .ok out → ∃ first listings inspections,
      scanPaths t settings paths = .ok first ∧ listPaths t settings.includeNested others = .ok listings ∧
      (tasks t (listings.map (Listing.unlisted t paths))).mapM (inspect t settings) = .ok inspections ∧
      out.report.IsUnion first.report (.ofClassifications (classified inspections)) ∧
      first.report.Within out.report) ∧
    ((∀ path ∈ others, path ∈ paths) → ∀ out, scanPaths t settings (paths ++ others) = .ok out ↔
      ∃ first, scanPaths t settings paths = .ok first ∧
        out = { first with summary := { first.summary with roots := paths.length + others.length } }) ∧
    (t.Apart settings.includeNested paths others → ∀ out,
      scanPaths t settings (paths ++ others) = .ok out ↔ scanPaths t settings (others ++ paths) = .ok out) := by
  refine ⟨?_, fun hsubset out => scanPaths_append_of_subset hsubset, ?_⟩
  · intro out h
    obtain ⟨first, listings, inspections, hfirst, hlistings, hinspections, hunion⟩ := scanPaths_append_isUnion h
    exact ⟨first, listings, inspections, hfirst, hlistings, hinspections, hunion, hunion.within_left⟩
  · intro hapart out
    exact ⟨scanPaths_append_comm hapart, scanPaths_append_comm hapart.symm⟩

/-- Three directories: the second one has half of the class of the first, and another one; the third shares nothing. -/
def libraryTree : FileTree where
  workingDirectory := ["work"]
  nodes := [(["work", "app"], .directory), (["work", "app", "Job.class"], .file jobClass),
    (["work", "lib"], .directory), (["work", "lib", "Job.class"], .file [0xCA, 0xFE]),
    (["work", "lib", "Tool.class"], .file jobClass), (["work", "ext"], .directory),
    (["work", "ext", "Plan.class"], .file jobClass)]
  distinct := by decide

theorem apart_app_ext : libraryTree.Apart false ["app"] ["ext"] := by
  have hlist : listPaths libraryTree false ["app"] = .ok [⟨.directory "app", ["Job.class"], []⟩] := by decide +kernel
  intro r hscannable hpaths
  have hr := (mem_resources_iff hlist).mpr ⟨hscannable, hpaths⟩
  obtain rfl : r = "Job.class" := by simpa using hr
  decide +kernel

theorem scanPaths_append_composes_library :
    (∃ out first listings inspections, scanPaths libraryTree {} (["app"] ++ ["lib"]) = .ok out ∧
      scanPaths libraryTree {} ["app"] = .ok first ∧ listPaths libraryTree false ["lib"] = .ok listings ∧
      (tasks libraryTree (listings.map (Listing.unlisted libraryTree ["app"]))).mapM (inspect libraryTree {}) =
        .ok inspections ∧
      out.report.IsUnion first.report (.ofClassifications (classified inspections)) ∧
      first.report.Within out.report) ∧
    (∀ out, scanPaths libraryTree {} (["app"] ++ ["app"]) = .ok out ↔
      ∃ first, scanPaths libraryTree {} ["app"] = .ok first ∧
        out = { first with summary := { first.summary with roots := 2 } }) ∧
    (∀ out, scanPaths libraryTree {} (["app"] ++ ["ext"]) = .ok out ↔
      scanPaths libraryTree {} (["ext"] ++ ["app"]) = .ok out) := by
  refine ⟨?_, (scanPaths_append_composes libraryTree {} ["app"] ["app"]).2.1 fun _ h => h,
    (scanPaths_append_composes libraryTree {} ["app"] ["ext"]).2.2 apart_app_ext⟩
  have hrun : (scanPaths libraryTree {} (["app"] ++ ["lib"])).toOption.map (·.summary.scanned) = some 2 := by
    decide +kernel
  obtain ⟨out, h, -⟩ := Attempt.toOption_map_eq_some.mp hrun
  obtain ⟨first, listings, inspections, hall⟩ := (scanPaths_append_composes libraryTree {} ["app"] ["lib"]).1 out h
  exact ⟨out, first, listings, inspections, h, hall⟩

end Scan

end MethodScout
