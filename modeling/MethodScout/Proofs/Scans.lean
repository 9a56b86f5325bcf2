import MethodScout.Proofs.Attempts
import MethodScout.Proofs.Reports
import MethodScout.Proofs.Rules
import MethodScout.Proofs.Shadowing
import MethodScout.Scan.Basic

/-!
# What scans find

A scan reads each class resource from the first of its roots that lists it. Its report has exactly the methods of the
classes read that way, each in the categories whose rules it meets.
-/

namespace MethodScout

/-- The root at the path lists the class resource. -/
def FileTree.Lists (t : FileTree) (path : PathText) (r : String) : Prop :=
  ∃ root names, Root.ofPath t path = .ok root ∧ root.classes t = .ok names ∧ r ∈ names

/-- The root at the path has the bytes as the content of the class resource. -/
def FileTree.Gives (t : FileTree) (path : PathText) (r : String) (bs : Bytes) : Prop :=
  ∃ root reader, Root.ofPath t path = .ok root ∧ root.reader t = .ok reader ∧ reader.read t r = .ok bs

namespace Source

variable {t : FileTree} {includeNested : Bool}

/-! ## Shadowing -/

theorem lists_iff {path : PathText} {root : Root} (hroot : Root.ofPath t path = .ok root) {r : String} :
    t.Lists path r ↔ root.Lists t r := by
  simp [FileTree.Lists, Root.Lists, hroot]

/-- A listing has the scannable resources of its root that are not in `seen` and that no root before it lists. -/
theorem mem_listingsAfter {paths : List PathText} {roots : List Root} {seen : List String} {listings : List Listing}
    (hroots : List.Forall₂ (fun path root => Root.ofPath t path = .ok root) paths roots)
    (h : listingsAfter t includeNested seen roots = .ok listings) (root : Root) (r : String) :
    (∃ l ∈ listings, l.root = root ∧ r ∈ l.resources) ↔
      ∃ before path after, paths = before ++ path :: after ∧ Root.ofPath t path = .ok root ∧
        Resource.isScannable includeNested r = true ∧ ¬r ∈ seen ∧ t.Lists path r ∧
          ∀ earlier ∈ before, ¬t.Lists earlier r := by
  induction hroots generalizing seen listings with
  | nil =>
      cases h
      simp
  | @cons first root' paths roots hroot hroots ih =>
      obtain ⟨names, rest, hnames, hrest, rfl⟩ := listingsAfter_cons_eq_ok h
      have hmem := (mem_scannable_iff hnames r).trans (and_congr_left' (lists_iff hroot).symm)
      have ih := ih hrest
      refine ⟨?_, ?_⟩
      · rintro ⟨l, hl, rfl, hr⟩
        rcases List.mem_cons.mp hl with rfl | hl
        · obtain ⟨hr, hseen⟩ := mem_listingAfter.mp hr
          obtain ⟨hlists, hscannable⟩ := hmem.mp hr
          exact ⟨[], first, paths, rfl, hroot, hscannable, hseen, hlists, by simp⟩
        · obtain ⟨before, path, after, rfl, hpath, hscannable, hseen, hlists, hbefore⟩ := ih.mp ⟨l, hl, rfl, hr⟩
          -- a scannable resource that the first root lists is seen from then on
          rw [List.mem_append, mem_listingAfter, not_or] at hseen
          obtain ⟨hseen, hfresh⟩ := hseen
          have hfirst : ¬t.Lists first r := fun hfirst => hfresh ⟨hmem.mpr ⟨hfirst, hscannable⟩, hseen⟩
          exact ⟨first :: before, path, after, rfl, hpath, hscannable, hseen, hlists, by simpa [hfirst] using hbefore⟩
      · rintro ⟨before, path, after, hpaths, hpath, hscannable, hseen, hlists, hbefore⟩
        cases before with
        | nil =>
            cases hpaths
            cases hroot.symm.trans hpath
            exact ⟨_, List.mem_cons_self, rfl, mem_listingAfter.mpr ⟨hmem.mpr ⟨hlists, hscannable⟩, hseen⟩⟩
        | cons first' before =>
            cases hpaths
            have hfirst : ¬r ∈ names := fun hr => hbefore first List.mem_cons_self (hmem.mp hr).1
            obtain ⟨l, hl, hlroot, hr⟩ := ih.mpr ⟨before, path, after, rfl, hpath, hscannable,
              by simp [mem_listingAfter, hseen, hfirst], hlists, fun earlier he => hbefore earlier (List.mem_cons_of_mem _ he)⟩
            exact ⟨l, List.mem_cons_of_mem _ hl, hlroot, hr⟩

end Source

/-! ## Reading and classifying -/

namespace Scan

variable {t : FileTree} {settings : Settings}

theorem mem_tasks {listings : List Listing} {task : Task} :
    task ∈ tasks t listings ↔ ∃ l ∈ listings, ∃ r ∈ l.resources, task = ⟨l.root, l.root.reader t, r⟩ := by
  simp [tasks, eq_comm]

theorem inspect_result {task : Task} {i : Inspection} (h : inspect t settings task = .ok i) (c : Classification) :
    i.result.toOption = some c ↔ ∃ reader bs, task.reader = .ok reader ∧ reader.read t task.resource = .ok bs ∧
      Classification.ofBytes settings bs = .ok c := by
  unfold inspect at h
  cases hreader : task.reader with
  | error e =>
      simp only [hreader] at h
      cases h
  | ok reader =>
      simp only [hreader] at h
      obtain ⟨bs, hbs, h⟩ := Attempt.bind_eq_ok.mp h
      cases hc : Classification.ofBytes settings bs with
      | ok c' =>
          simp only [hc] at h
          cases h
          simp [Except.toOption, hbs, hc]
      | error e =>
          simp only [hc] at h
          split at h
          · cases h
            simp [Except.toOption, hbs, hc]
          · cases h

theorem mem_classified {tasks : List Task} {inspections : List Inspection}
    (h : List.Forall₂ (fun task i => inspect t settings task = .ok i) tasks inspections) (c : Classification) :
    c ∈ classified inspections ↔ ∃ task ∈ tasks, ∃ reader bs, task.reader = .ok reader ∧
      reader.read t task.resource = .ok bs ∧ Classification.ofBytes settings bs = .ok c := by
  rw [classified, List.mem_filterMap]
  induction h with
  | nil => simp
  | cons hinspect _ ih => simp only [List.mem_cons, exists_eq_or_imp, inspect_result hinspect, ih]

/-- The class is decoded from a resource of a root that lists it when no root before it does. -/
def Reaches (t : FileTree) (settings : Settings) (paths : List PathText) (file : ClassFile) : Prop :=
  ∃ before path after r bs, paths = before ++ path :: after ∧ Resource.isScannable settings.includeNested r = true ∧
    t.Lists path r ∧ (∀ earlier ∈ before, ¬t.Lists earlier r) ∧ t.Gives path r bs ∧ ClassFile.decode bs = .ok file

/-- Some class of the name that is reached has a method of the other name that is not left out and meets the rule. -/
def Finds (t : FileTree) (settings : Settings) (paths : List PathText) (k : Category) (c x : String) : Prop :=
  ∃ file, Reaches t settings paths file ∧ file.name = c ∧
    ∃ m ∈ file.methods, m.name = x ∧ settings.filter.excludes x = false ∧ k.Rule settings c m

theorem mem_classified_iff_reaches {paths : List PathText} {roots : List Root} {listings : List Listing}
    {inspections : List Inspection}
    (hroots : List.Forall₂ (fun path root => Root.ofPath t path = .ok root) paths roots)
    (hlistings : Source.listingsAfter t settings.includeNested [] roots = .ok listings)
    (hinspections : List.Forall₂ (fun task i => inspect t settings task = .ok i) (tasks t listings) inspections)
    (c : Classification) :
    c ∈ classified inspections ↔
      ∃ file, Reaches t settings paths file ∧ (ClassProfile.ofClassFile file).classify settings = c := by
  rw [mem_classified hinspections]
  refine ⟨?_, ?_⟩
  · rintro ⟨_, htask, reader, bs, hreader, hbs, hc⟩
    obtain ⟨l, hl, r, hr, rfl⟩ := mem_tasks.mp htask
    obtain ⟨before, path, after, hpaths, hpath, hscannable, -, hlists, hbefore⟩ :=
      (Source.mem_listingsAfter hroots hlistings l.root r).mp ⟨l, hl, rfl, hr⟩
    obtain ⟨file, hfile, hclassify⟩ := Attempt.map_eq_ok.mp hc
    exact ⟨file, ⟨before, path, after, r, bs, hpaths, hscannable, hlists, hbefore, ⟨l.root, reader, hpath, hreader, hbs⟩,
      hfile⟩, hclassify⟩
  · rintro ⟨file, ⟨before, path, after, r, bs, hpaths, hscannable, hlists, hbefore, ⟨root, reader, hpath, hreader, hbs⟩,
      hfile⟩, hclassify⟩
    obtain ⟨l, hl, rfl, hr⟩ := (Source.mem_listingsAfter hroots hlistings root r).mpr
      ⟨before, path, after, hpaths, hpath, hscannable, List.not_mem_nil, hlists, hbefore⟩
    exact ⟨_, mem_tasks.mpr ⟨l, hl, r, hr, rfl⟩, reader, bs, hreader, hbs, Attempt.map_eq_ok.mpr ⟨file, hfile, hclassify⟩⟩

theorem scanPaths_eq_ok {paths : List PathText} {out : Outcome} (h : scanPaths t settings paths = .ok out) :
    ∃ roots listings inspections, List.Forall₂ (fun path root => Root.ofPath t path = .ok root) paths roots ∧
      Source.listingsAfter t settings.includeNested [] roots = .ok listings ∧
      List.Forall₂ (fun task i => inspect t settings task = .ok i) (tasks t listings) inspections ∧
      out = outcome listings.length inspections := by
  obtain ⟨source, hsource, h⟩ := Attempt.bind_eq_ok.mp h
  obtain ⟨roots, hroots, hsource⟩ := Attempt.bind_eq_ok.mp hsource
  cases hsource
  obtain ⟨listings, hlistings, h⟩ := Attempt.bind_eq_ok.mp h
  obtain ⟨inspections, hinspections, h⟩ := Attempt.bind_eq_ok.mp h
  cases h
  exact ⟨roots, listings, inspections, Attempt.mapM_eq_ok.mp hroots, hlistings, Attempt.mapM_eq_ok.mp hinspections, rfl⟩

/-- The report of a scan has in each category, and over all of them, exactly the methods that the scan finds. -/
theorem scanPaths_report_tabulates_finds {paths : List PathText} {out : Outcome}
    (h : scanPaths t settings paths = .ok out) :
    (∀ k, (out.report.categories.get k).Tabulates (Finds t settings paths k)) ∧
      (out.report.classes.Tabulates fun c x => ∃ k, Finds t settings paths k c x) ∧
      ∀ k, out.report.category? k = none ↔ ∀ c x, ¬Finds t settings paths k c x := by
  obtain ⟨roots, listings, inspections, hroots, hlistings, hinspections, rfl⟩ := scanPaths_eq_ok h
  have hof : (Report.ofClassifications (classified inspections)).IsOf (Finds t settings paths) := by
    refine (Report.isOf_ofClassifications (classified inspections)).congr fun k c x => ?_
    simp only [mem_classified_iff_reaches hroots hlistings hinspections]
    refine ⟨?_, ?_⟩
    · rintro ⟨_, ⟨file, hfile, rfl⟩, rfl, hx⟩
      exact ⟨file, hfile, rfl, ClassProfile.mem_classify.mp hx⟩
    · rintro ⟨file, hfile, rfl, hx⟩
      exact ⟨_, ⟨file, hfile, rfl⟩, rfl, ClassProfile.mem_classify.mpr hx⟩
  exact ⟨hof.categories, hof.classes, hof.category?_eq_none_iff⟩

/-- A class with one synchronized method. -/
def jobClass : Bytes :=
  [0xCA, 0xFE, 0xBA, 0xBE, 0, 0, 0, 52, 0, 5, 1, 0, 3, 74, 111, 98, 7, 0, 1, 1, 0, 3, 114, 117, 110, 1, 0, 3, 40, 41, 86,
   0, 0x21, 0, 2, 0, 0, 0, 0, 0, 0, 0, 1, 0, 0x21, 0, 3, 0, 4, 0, 0, 0, 0]

/-- A directory with a class, and one in which the same resource is empty. -/
def jobTree : FileTree where
  workingDirectory := ["work"]
  nodes := [(["work", "app"], .directory), (["work", "app", "Job.class"], .file jobClass),
    (["work", "old"], .directory), (["work", "old", "Job.class"], .file [])]
  distinct := by decide

theorem scanPaths_report_tabulates_finds_shadowed :
    ∃ out, scanPaths jobTree {} ["app", "old"] = .ok out ∧
      out.report.classes.get? "Job" = some (NameSet.ofList ["run"]) ∧
      (∀ k, (out.report.categories.get k).Tabulates (Finds jobTree {} ["app", "old"] k)) ∧
      (out.report.classes.Tabulates fun c x => ∃ k, Finds jobTree {} ["app", "old"] k c x) ∧
      ∀ k, out.report.category? k = none ↔ ∀ c x, ¬Finds jobTree {} ["app", "old"] k c x := by
  have hrun : (scanPaths jobTree {} ["app", "old"]).toOption.map (fun out => out.report.classes.get? "Job") =
      some (some (NameSet.ofList ["run"])) := by decide +kernel
  cases h : scanPaths jobTree {} ["app", "old"] with
  | error e =>
      rw [h] at hrun
      cases hrun
  | ok out =>
      rw [h] at hrun
      exact ⟨out, rfl, Option.some.inj hrun, scanPaths_report_tabulates_finds h⟩

end Scan

end MethodScout
