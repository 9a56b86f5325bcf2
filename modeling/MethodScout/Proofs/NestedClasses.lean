import Mathlib.Data.List.Induction
import MethodScout.Proofs.Exclusions
import MethodScout.Proofs.Policies

/-!
# Leaving out nested classes

A class within another one is in a resource with a dollar sign in the last part of its name. Whether such resources are
left out before it is found which root a resource is taken from, or after that, makes no difference: a root shadows the
same name in the roots after it, and all of these are nested or none.
-/

namespace MethodScout

/-! ## Names of nested classes -/

theorem Text.dropEnding?_eq_some_iff {tail text stem : String} :
    Text.dropEnding? tail text = some stem ↔ text = stem ++ tail := by
  have hdrop (before : String) : Text.dropEnding? tail (before ++ tail) = some before := by
    have hends : Text.endsWith tail (before ++ tail) = true := Text.endsWith_iff.mpr ⟨before, rfl⟩
    simp [Text.dropEnding?, hends, ← String.length_toList]
  constructor
  · intro h
    have hends : Text.endsWith tail text = true := by
      by_contra hends
      simp [Text.dropEnding?, hends] at h
    obtain ⟨before, rfl⟩ := Text.endsWith_iff.mp hends
    rw [hdrop] at h
    cases h
    rfl
  · intro h
    rw [h, hdrop]

namespace Resource

/-- The folders that a name begins with: nothing, or all up to some slash. -/
def IsFolder (folder : String) : Prop := folder = "" ∨ Text.EndsIn "/" folder

/-- The last part of the resource name, without the ending, has a dollar sign. -/
def IsNested (resource : String) : Prop :=
  ∃ folder simple : String, resource = folder ++ simple ++ ending ∧ IsFolder folder ∧ '/' ∉ simple.toList ∧
    '$' ∈ simple.toList

theorem exists_folder (stem : String) :
    ∃ folder simple : String, stem = folder ++ simple ∧ IsFolder folder ∧ '/' ∉ simple.toList := by
  obtain ⟨cs, rfl⟩ : ∃ cs, stem = String.ofList cs := ⟨stem.toList, String.ofList_toList.symm⟩
  -- the characters are taken from the end, since the last slash counts
  induction cs using List.reverseRecOn with
  | nil => exact ⟨"", "", rfl, .inl rfl, by simp⟩
  | append_singleton cs c ih =>
      by_cases hc : c = '/'
      · subst c
        refine ⟨String.ofList (cs ++ ['/']), "", by simp, .inr ⟨String.ofList cs, ?_⟩, by simp⟩
        rw [String.ofList_append]
      · obtain ⟨folder, simple, hstem, hfolder, hsimple⟩ := ih
        refine ⟨folder, simple ++ String.ofList [c], ?_, hfolder, ?_⟩
        · rw [String.ofList_append, hstem, String.append_assoc]
        · simpa [hsimple] using Ne.symm hc

theorem simpleName_append {folder simple : String} (hfolder : IsFolder folder) (hsimple : '/' ∉ simple.toList) :
    simpleName (folder ++ simple) = simple := by
  rcases hfolder with rfl | ⟨before, rfl⟩
  · simp [simpleName, Text.parts, List.splitOn_eq_singleton hsimple]
  · have hsplit : (before ++ "/" ++ simple).toList.splitOn '/' = before.toList.splitOn '/' ++ [simple.toList] := by
      rw [String.toList_append, String.toList_append, List.append_assoc]
      exact (List.splitOn_append_cons_self _ _).trans (congrArg _ (List.splitOn_eq_singleton hsimple))
    rw [simpleName, Text.parts, hsplit]
    simp

theorem isNested_append_iff {stem : String} : IsNested (stem ++ ending) ↔ '$' ∈ (simpleName stem).toList := by
  constructor
  · rintro ⟨folder, simple, hname, hfolder, hslash, hdollar⟩
    obtain rfl : stem = folder ++ simple := (String.append_left_inj ending).mp hname
    rwa [simpleName_append hfolder hslash]
  · intro h
    obtain ⟨folder, simple, rfl, hfolder, hslash⟩ := exists_folder stem
    rw [simpleName_append hfolder hslash] at h
    exact ⟨folder, simple, rfl, hfolder, hslash, h⟩

theorem isNested_iff {r : String} :
    IsNested r ↔ (Text.dropEnding? ending r).any (fun stem => (simpleName stem).toList.contains '$') = true := by
  cases hstem : Text.dropEnding? ending r with
  | none =>
      simp only [Option.any_none, Bool.false_eq_true, iff_false]
      rintro ⟨folder, simple, hname, -⟩
      rw [Text.dropEnding?_eq_some_iff.mpr hname] at hstem
      cases hstem
  | some stem =>
      obtain rfl := Text.dropEnding?_eq_some_iff.mp hstem
      rw [isNested_append_iff]
      simp

instance : DecidablePred IsNested := fun _ => decidable_of_iff _ isNested_iff.symm

theorem isScannable_false_iff {r : String} : isScannable false r = true ↔ isScannable true r = true ∧ ¬IsNested r := by
  unfold isScannable
  cases hstem : Text.dropEnding? ending r with
  | none => simp
  | some stem =>
      obtain rfl := Text.dropEnding?_eq_some_iff.mp hstem
      rw [isNested_append_iff]
      simp [and_assoc]

end Resource

/-! ## Listings -/

/-- The listing without the resources of nested classes. -/
def Listing.withoutNested (l : Listing) : Listing where
  root := l.root
  resources := l.resources.filter fun r => ¬Resource.IsNested r
  shadowed := l.shadowed.filter fun r => ¬Resource.IsNested r

namespace Source

variable {t : FileTree} {seen seen' names : List String} {root : Root} {roots : List Root}

theorem scannable_false :
    scannable t false root = (scannable t true root).map (List.filter fun r => ¬Resource.IsNested r) := by
  unfold scannable
  cases root.classes t with
  | error e => rfl
  | ok listed =>
      refine congrArg Except.ok (eq_of_sorted_of_mem_iff (f := id) (NameSet.sorted _) ((NameSet.sorted _).filter _) ?_)
      intro r
      simp [Resource.isScannable_false_iff, and_assoc]

/-- Only names of nested classes are in one of the lists and not in the other. -/
def SeenAlike (seen seen' : List String) : Prop := ∀ r, ¬Resource.IsNested r → (r ∈ seen' ↔ r ∈ seen)

/-- Nested classes can be left out before a test or after it, and what the test says of them does not count. -/
theorem filter_withoutNested (names : List String) {p q : String → Bool}
    (h : ∀ r, ¬Resource.IsNested r → p r = q r) :
    (names.filter fun r => ¬Resource.IsNested r).filter p = (names.filter q).filter fun r => ¬Resource.IsNested r := by
  rw [List.filter_filter, List.filter_filter]
  apply List.filter_congr
  intro r _
  by_cases hr : Resource.IsNested r
  · simp [hr]
  · simp [hr, h r hr]

theorem SeenAlike.contains_eq (h : SeenAlike seen seen') {r : String} (hr : ¬Resource.IsNested r) :
    seen'.contains r = seen.contains r := by
  rw [Bool.eq_iff_iff, List.contains_iff_mem, List.contains_iff_mem]
  exact h r hr

theorem listingAfter_withoutNested (h : SeenAlike seen seen') :
    listingAfter seen' root (names.filter fun r => ¬Resource.IsNested r) =
      (listingAfter seen root names).withoutNested := by
  have hfresh := filter_withoutNested names fun r hr => congrArg not (h.contains_eq hr)
  have hshadowed := filter_withoutNested names fun r hr => h.contains_eq hr
  simp only [listingAfter, Listing.withoutNested, hfresh, hshadowed]

theorem SeenAlike.append_resources (h : SeenAlike seen seen') {l : Listing} :
    SeenAlike (seen ++ l.resources) (seen' ++ l.withoutNested.resources) := by
  intro r hr
  simp [Listing.withoutNested, h r hr, hr]

/-- The roots are listed in step: what is seen differs in nested classes only, and these are no longer there. -/
theorem listingsAfter_false (h : SeenAlike seen seen') :
    listingsAfter t false seen' roots = (listingsAfter t true seen roots).map (List.map Listing.withoutNested) := by
  induction roots generalizing seen seen' with
  | nil => rfl
  | cons root roots ih =>
      have hfalse : scannable t false root = _ := scannable_false
      cases hnames : scannable t true root with
      | error e =>
          rw [hnames] at hfalse
          rw [listingsAfter, listingsAfter, hnames, hfalse]
          rfl
      | ok names =>
          rw [hnames] at hfalse
          rw [listingsAfter_cons hnames, listingsAfter_cons hfalse, listingAfter_withoutNested h,
            ih h.append_resources]
          cases listingsAfter t true (seen ++ (listingAfter seen root names).resources) roots with
          | error e => rfl
          | ok listings => rfl

end Source

/-! ## Scans -/

def Settings.withNested (s : Settings) : Settings := { s with includeNested := true }

def Settings.withoutNested (s : Settings) : Settings := { s with includeNested := false }

namespace FileTree

variable {t : FileTree} {paths : List PathText} {path : PathText} {r : String}

theorem Takes.withNested (h : t.Takes false paths path r) : t.Takes true paths path r := by
  obtain ⟨before, after, hpaths, hscannable, hrest⟩ := h
  exact ⟨before, after, hpaths, (Resource.isScannable_false_iff.mp hscannable).1, hrest⟩

theorem Readable.withoutNested (h : t.Readable true paths) : t.Readable false paths where
  roots := h.roots
  resources path r htakes := h.resources path r htakes.withNested

theorem Decodable.withoutNested (h : t.Decodable true paths) : t.Decodable false paths :=
  fun path r bs htakes hgives => h path r bs htakes.withNested hgives

end FileTree

namespace Scan

variable {t : FileTree} {settings : Settings} {paths : List PathText} {out : Outcome}

theorem exists_scanPaths_withoutNested (h : scanPaths t settings.withNested paths = .ok out) :
    ∃ out', scanPaths t settings.withoutNested paths = .ok out' := by
  obtain ⟨hread, hvalid⟩ := exists_scanPaths_eq_ok_iff.mp ⟨out, h⟩
  exact exists_scanPaths_eq_ok_iff.mpr ⟨hread.withoutNested, hvalid.imp_right FileTree.Decodable.withoutNested⟩

theorem Reaches.withNested {file : ClassFile} (h : Reaches t settings.withoutNested paths file) :
    Reaches t settings.withNested paths file := by
  obtain ⟨before, path, after, r, bs, hpaths, hscannable, hrest⟩ := h
  exact ⟨before, path, after, r, bs, hpaths, (Resource.isScannable_false_iff.mp hscannable).1, hrest⟩

theorem within_of_withoutNested {out' : Outcome} (h : scanPaths t settings.withNested paths = .ok out)
    (h' : scanPaths t settings.withoutNested paths = .ok out') : out'.report.Within out.report := by
  obtain ⟨contents, hcontents, rfl⟩ := scanPaths_eq_ok_iff_gather.mp h
  obtain ⟨contents', hcontents', rfl⟩ := scanPaths_eq_ok_iff_gather.mp h'
  apply (isOf_reported _ _ contents').within (isOf_reported _ _ contents)
  rintro k c x ⟨file, hfile, hname, m, hm, hx, hkept, hrule⟩
  have hreaches := (mem_files_iff_reaches hcontents').mp hfile
  have hrule' : k.Rule settings.withNested c m := (Category.rule_congr (fun _ => rfl) fun _ => rfl).mp hrule
  exact ⟨file, (mem_files_iff_reaches hcontents).mpr hreaches.withNested, hname, m, hm, hx, hkept, hrule'⟩

/-- The listings without nested classes are those with them, less the resources of nested classes; they fail alike. A scan
without nested classes succeeds if one with them does, and reports nothing that is not reported there. -/
theorem nested_classes_are_filtered (t : FileTree) :
    (∀ roots, Source.listings t ⟨roots, false⟩ =
      (Source.listings t ⟨roots, true⟩).map (List.map Listing.withoutNested)) ∧
    ∀ settings paths out, scanPaths t (Settings.withNested settings) paths = .ok out →
      ∃ out', scanPaths t settings.withoutNested paths = .ok out' ∧ out'.report.Within out.report := by
  constructor
  · intro roots
    exact Source.listingsAfter_false fun _ _ => Iff.rfl
  · intro settings paths out h
    obtain ⟨out', h'⟩ := exists_scanPaths_withoutNested h
    exact ⟨out', h', within_of_withoutNested h h'⟩

/-- Two directories with the same nested class. In the second one another class is in a folder with a dollar sign. -/
def nestedTree : FileTree where
  workingDirectory := ["work"]
  nodes := [(["work", "app"], .directory), (["work", "app", "Job.class"], .file jobClass),
    (["work", "app", "Job$1.class"], .file pairClass), (["work", "lib"], .directory),
    (["work", "lib", "Job$1.class"], .file []), (["work", "lib", "a$b"], .directory),
    (["work", "lib", "a$b", "Job.class"], .file jobClass)]
  distinct := by decide

theorem nested_classes_are_filtered_shadowed :
    Source.listings nestedTree ⟨[.directory "app", .directory "lib"], true⟩ =
      .ok [⟨.directory "app", ["Job$1.class", "Job.class"], []⟩,
        ⟨.directory "lib", ["a$b/Job.class"], ["Job$1.class"]⟩] ∧
    Source.listings nestedTree ⟨[.directory "app", .directory "lib"], false⟩ =
      .ok [⟨.directory "app", ["Job.class"], []⟩, ⟨.directory "lib", ["a$b/Job.class"], []⟩] ∧
    ∃ out out', scanPaths nestedTree (Settings.withNested {}) ["app", "lib"] = .ok out ∧
      scanPaths nestedTree (Settings.withoutNested {}) ["app", "lib"] = .ok out' ∧
      out.report.classes.get? "Job" = some (.ofList ["run", "stop"]) ∧ out'.report.Within out.report := by
  obtain ⟨hlistings, hscan⟩ := nested_classes_are_filtered nestedTree
  have hall : Source.listings nestedTree ⟨[.directory "app", .directory "lib"], true⟩ =
      .ok [⟨.directory "app", ["Job$1.class", "Job.class"], []⟩,
        ⟨.directory "lib", ["a$b/Job.class"], ["Job$1.class"]⟩] := by decide +kernel
  have hrun : (scanPaths nestedTree (Settings.withNested {}) ["app", "lib"]).toOption.map
      (fun out => out.report.classes.get? "Job") = some (some (.ofList ["run", "stop"])) := by decide +kernel
  obtain ⟨out, h, hjob⟩ := Attempt.toOption_map_eq_some.mp hrun
  obtain ⟨out', h', hwithin⟩ := hscan _ _ out h
  refine ⟨hall, ?_, out, out', h, h', hjob, hwithin⟩
  rw [hlistings, hall]
  decide +kernel

end Scan

end MethodScout
