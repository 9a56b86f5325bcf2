import Mathlib.Data.List.Nodup
import Mathlib.Data.Nat.Find
import MethodScout.Proofs.Attempts
import MethodScout.Proofs.Utf8Order
import MethodScout.Scan.Source

/-!
# Which root a class resource is taken from

The roots of a source are listed one after the other, and what one has listed is left out of those after it. So every
scannable resource is listed once, for the first root that has it.
-/

namespace MethodScout

/-- The root lists the class resource. -/
def Root.Lists (t : FileTree) (root : Root) (r : String) : Prop :=
  ∃ names, root.classes t = .ok names ∧ r ∈ names

namespace Source

variable {t : FileTree} {includeNested : Bool} {seen : List String} {root : Root} {roots : List Root}
  {listings : List Listing}

/-! ## One root -/

theorem mem_scannable_iff {names : List String} (h : scannable t includeNested root = .ok names) (r : String) :
    r ∈ names ↔ root.Lists t r ∧ Resource.isScannable includeNested r = true := by
  obtain ⟨listed, hlisted, rfl⟩ := Attempt.map_eq_ok.mp h
  simp [Root.Lists, hlisted]

theorem sorted_scannable {names : List String} (h : scannable t includeNested root = .ok names) :
    names.Pairwise (· < ·) := by
  obtain ⟨listed, -, rfl⟩ := Attempt.map_eq_ok.mp h
  exact (NameSet.ofList _).sorted

theorem scannable_of_ok (includeNested : Bool) {listed : List String} (h : root.classes t = .ok listed) :
    ∃ names, scannable t includeNested root = .ok names :=
  ⟨_, Attempt.map_eq_ok.mpr ⟨listed, h, rfl⟩⟩

theorem scannable_of_error {e : ScanFault} (h : root.classes t = .error e) :
    scannable t includeNested root = .error e := by
  simp [scannable, h, Except.map]

/-- The listing of a root after others: what they have is shadowed. -/
def listingAfter (seen : List String) (root : Root) (names : List String) : Listing :=
  ⟨root, names.filter fun name => !seen.contains name, names.filter seen.contains⟩

theorem mem_listingAfter {names : List String} {r : String} :
    r ∈ (listingAfter seen root names).resources ↔ r ∈ names ∧ ¬r ∈ seen := by
  simp [listingAfter]

theorem listingsAfter_cons {names : List String} (h : scannable t includeNested root = .ok names) :
    listingsAfter t includeNested seen (root :: roots) =
      (listingsAfter t includeNested (seen ++ (listingAfter seen root names).resources) roots).map
        (listingAfter seen root names :: ·) := by
  rw [listingsAfter, h]
  rfl

/-- A root is listed, and then the roots after it, for which its resources are seen too. -/
theorem listingsAfter_cons_eq_ok (h : listingsAfter t includeNested seen (root :: roots) = .ok listings) :
    ∃ names rest, scannable t includeNested root = .ok names ∧
      listingsAfter t includeNested (seen ++ (listingAfter seen root names).resources) roots = .ok rest ∧
        listings = listingAfter seen root names :: rest := by
  obtain ⟨names, hnames, -⟩ := Attempt.bind_eq_ok.mp h
  rw [listingsAfter_cons hnames] at h
  obtain ⟨rest, hrest, rfl⟩ := Attempt.map_eq_ok.mp h
  exact ⟨names, rest, hnames, hrest, rfl⟩

/-! ## All roots -/

theorem roots_of_listingsAfter (h : listingsAfter t includeNested seen roots = .ok listings) :
    listings.map Listing.root = roots := by
  induction roots generalizing seen listings with
  | nil =>
      cases h
      rfl
  | cons root roots ih =>
      obtain ⟨names, rest, -, hrest, rfl⟩ := listingsAfter_cons_eq_ok h
      rw [List.map_cons, ih hrest]
      rfl

theorem sorted_of_listingsAfter (h : listingsAfter t includeNested seen roots = .ok listings) :
    ∀ l ∈ listings, l.resources.Pairwise (· < ·) := by
  induction roots generalizing seen listings with
  | nil =>
      cases h
      simp
  | cons root roots ih =>
      obtain ⟨names, rest, hnames, hrest, rfl⟩ := listingsAfter_cons_eq_ok h
      exact List.forall_mem_cons.mpr ⟨(sorted_scannable hnames).filter _, ih hrest⟩

/-- A listing has the scannable resources of its root that are not seen and that no root before it lists. -/
theorem mem_of_listingsAfter (h : listingsAfter t includeNested seen roots = .ok listings) {i : Nat} {l : Listing}
    (hl : listings[i]? = some l) (r : String) :
    r ∈ l.resources ↔ Resource.isScannable includeNested r = true ∧ ¬r ∈ seen ∧ l.root.Lists t r ∧
      ∀ j < i, ∀ earlier, roots[j]? = some earlier → ¬earlier.Lists t r := by
  induction roots generalizing seen listings i with
  | nil =>
      cases h
      simp at hl
  | cons root roots ih =>
      obtain ⟨names, rest, hnames, hrest, rfl⟩ := listingsAfter_cons_eq_ok h
      have hmem := mem_scannable_iff hnames r
      cases i with
      | zero =>
          obtain rfl : listingAfter seen root names = l := by simpa using hl
          rw [mem_listingAfter, hmem]
          simp only [listingAfter, Nat.not_lt_zero, false_implies, implies_true, and_true]
          tauto
      | succ i =>
          rw [ih hrest (by simpa using hl), List.mem_append, mem_listingAfter, hmem,
            Nat.forall_lt_succ_left]
          simp only [List.getElem?_cons_zero, List.getElem?_cons_succ, Option.some.injEq, forall_eq']
          tauto

theorem listingsAfter_eq_ok_iff :
    (∃ listings, listingsAfter t includeNested seen roots = .ok listings) ↔
      ∀ root ∈ roots, ∃ names, root.classes t = .ok names := by
  induction roots generalizing seen with
  | nil => simp [listingsAfter]
  | cons root roots ih =>
      rw [List.forall_mem_cons]
      refine ⟨?_, ?_⟩
      · rintro ⟨listings, h⟩
        obtain ⟨names, rest, hnames, hrest, rfl⟩ := listingsAfter_cons_eq_ok h
        obtain ⟨listed, hlisted, -⟩ := Attempt.map_eq_ok.mp hnames
        exact ⟨⟨listed, hlisted⟩, ih.mp ⟨rest, hrest⟩⟩
      · rintro ⟨⟨listed, hlisted⟩, hroots⟩
        obtain ⟨names, hnames⟩ := scannable_of_ok includeNested hlisted
        obtain ⟨rest, hrest⟩ := ih.mpr hroots
        exact ⟨_, (listingsAfter_cons hnames).trans (Attempt.map_eq_ok.mpr ⟨rest, hrest, rfl⟩)⟩

/-- The first root that cannot be listed says why. -/
def FailsFirst (t : FileTree) (roots : List Root) (e : ScanFault) : Prop :=
  ∃ before root after, roots = before ++ root :: after ∧
    (∀ earlier ∈ before, ∃ names, earlier.classes t = .ok names) ∧ root.classes t = .error e

theorem failsFirst_cons_of_ok {names : List String} {e : ScanFault} (h : root.classes t = .ok names) :
    FailsFirst t (root :: roots) e ↔ FailsFirst t roots e := by
  refine ⟨?_, ?_⟩
  · rintro ⟨before, root', after, hroots, hbefore, he⟩
    cases before with
    | nil =>
        cases hroots
        rw [h] at he
        cases he
    | cons first before =>
        cases hroots
        exact ⟨before, root', after, rfl, fun earlier hmem => hbefore earlier (List.mem_cons_of_mem _ hmem), he⟩
  · rintro ⟨before, root', after, rfl, hbefore, he⟩
    exact ⟨root :: before, root', after, rfl, List.forall_mem_cons.mpr ⟨⟨names, h⟩, hbefore⟩, he⟩

theorem failsFirst_cons_of_error {e e' : ScanFault} (h : root.classes t = .error e) :
    FailsFirst t (root :: roots) e' ↔ e = e' := by
  refine ⟨?_, ?_⟩
  · rintro ⟨before, root', after, hroots, hbefore, he⟩
    cases before with
    | nil =>
        cases hroots
        rw [h] at he
        cases he
        rfl
    | cons first before =>
        cases hroots
        obtain ⟨names, hnames⟩ := hbefore root List.mem_cons_self
        rw [h] at hnames
        cases hnames
  · rintro rfl
    exact ⟨[], root, roots, rfl, by simp, h⟩

theorem listingsAfter_eq_error_iff {e : ScanFault} :
    listingsAfter t includeNested seen roots = .error e ↔ FailsFirst t roots e := by
  induction roots generalizing seen with
  | nil => simp [listingsAfter, FailsFirst]
  | cons root roots ih =>
      cases hroot : root.classes t with
      | error e' =>
          rw [failsFirst_cons_of_error hroot, listingsAfter, scannable_of_error hroot]
          simp [bind, Except.bind]
      | ok listed =>
          obtain ⟨names, hnames⟩ := scannable_of_ok includeNested hroot
          rw [failsFirst_cons_of_ok hroot, listingsAfter_cons hnames, Attempt.map_eq_error]
          exact ih

/-! ## Whole sources -/

/-- The listings of a source: one for each root in order, each with the scannable resources of its root that no root
before it has, in the order of their bytes. -/
structure Enumerates (t : FileTree) (s : Source) (listings : List Listing) : Prop where
  roots : listings.map Listing.root = s.roots
  increasing : ∀ l ∈ listings, l.resources.Pairwise fun a b => Text.utf8 a < Text.utf8 b
  disjoint : listings.Pairwise fun l l' => l.resources.Disjoint l'.resources
  mem_iff : ∀ (i : Nat) (root : Root) (l : Listing), s.roots[i]? = some root → listings[i]? = some l →
    ∀ r, r ∈ l.resources ↔ Resource.isScannable s.includeNested r = true ∧ root.Lists t r ∧
      ∀ j < i, ∀ earlier, s.roots[j]? = some earlier → ¬earlier.Lists t r
  complete : ∀ root ∈ s.roots, ∀ r, root.Lists t r → Resource.isScannable s.includeNested r = true →
    ∃ l ∈ listings, r ∈ l.resources
  once : (listings.flatMap Listing.resources).Nodup

variable {s : Source}

theorem mem_listings_iff (h : s.listings t = .ok listings) {i : Nat} {l : Listing} (hl : listings[i]? = some l)
    (r : String) :
    r ∈ l.resources ↔ Resource.isScannable s.includeNested r = true ∧ l.root.Lists t r ∧
      ∀ j < i, ∀ earlier, s.roots[j]? = some earlier → ¬earlier.Lists t r := by
  rw [mem_of_listingsAfter h hl]
  simp

theorem getElem?_roots (h : s.listings t = .ok listings) (i : Nat) :
    s.roots[i]? = (listings[i]?).map Listing.root := by
  rw [← roots_of_listingsAfter h, List.getElem?_map]

theorem disjoint_listings (h : s.listings t = .ok listings) :
    listings.Pairwise fun l l' => l.resources.Disjoint l'.resources := by
  rw [List.pairwise_iff_getElem]
  intro i j hi hj hij r hri hrj
  have hfirst := ((mem_listings_iff h (List.getElem?_eq_getElem hi) r).mp hri).2.1
  have hroot : s.roots[i]? = some listings[i].root := by
    rw [getElem?_roots h, List.getElem?_eq_getElem hi, Option.map_some]
  exact ((mem_listings_iff h (List.getElem?_eq_getElem hj) r).mp hrj).2.2 i hij _ hroot hfirst

/-- A resource that some root lists is in the listing of the first one that does. -/
theorem exists_listing (h : s.listings t = .ok listings) (hroot : root ∈ s.roots) {r : String}
    (hlists : root.Lists t r) (hscannable : Resource.isScannable s.includeNested r = true) :
    ∃ l ∈ listings, r ∈ l.resources := by
  classical
  have hex : ∃ (i : Nat) (root : Root), s.roots[i]? = some root ∧ root.Lists t r := by
    obtain ⟨i, hi⟩ := List.mem_iff_getElem?.mp hroot
    exact ⟨i, root, hi, hlists⟩
  obtain ⟨first, hfirst, hlists⟩ := Nat.find_spec hex
  have hnone : ∀ j < Nat.find hex, ∀ earlier, s.roots[j]? = some earlier → ¬earlier.Lists t r :=
    fun j hj earlier hearlier hlisted => Nat.find_min hex hj ⟨earlier, hearlier, hlisted⟩
  rw [getElem?_roots h] at hfirst
  obtain ⟨l, hl, rfl⟩ := Option.map_eq_some_iff.mp hfirst
  exact ⟨l, List.mem_of_getElem? hl, (mem_listings_iff h hl r).mpr ⟨hscannable, hlists, hnone⟩⟩

theorem enumerates_of_listings (h : s.listings t = .ok listings) : s.Enumerates t listings where
  roots := roots_of_listingsAfter h
  increasing l hl := (sorted_of_listingsAfter h l hl).imp Text.utf8_lt_iff.mpr
  disjoint := disjoint_listings h
  mem_iff i root l hroot hl r := by
    obtain rfl : l.root = root := by simpa [getElem?_roots h, hl] using hroot
    exact mem_listings_iff h hl r
  complete root hroot r hlists hscannable := exists_listing h hroot hlists hscannable
  once := by
    refine List.nodup_flatMap.mpr ⟨fun l hl => ?_, disjoint_listings h⟩
    exact (sorted_of_listingsAfter h l hl).imp name_ne_of_lt

/-- Listing a source gives every scannable resource once, for the first root that has it, or fails because of the first
root that cannot be listed. -/
theorem listings_enumerate_or_fail_first (t : FileTree) (s : Source) :
    (∀ listings, s.listings t = .ok listings → s.Enumerates t listings) ∧
      ((∃ e, s.listings t = .error e) ↔ ∃ root ∈ s.roots, ∃ e, root.classes t = .error e) ∧
      ∀ e, s.listings t = .error e ↔ FailsFirst t s.roots e := by
  refine ⟨fun listings h => enumerates_of_listings h, ⟨?_, ?_⟩, fun e => listingsAfter_eq_error_iff⟩
  · rintro ⟨e, h⟩
    obtain ⟨before, root, after, hroots, -, he⟩ := listingsAfter_eq_error_iff.mp h
    exact ⟨root, by simp [hroots], e, he⟩
  · rintro ⟨root, hroot, e, he⟩
    cases h : s.listings t with
    | error e' => exact ⟨e', rfl⟩
    | ok listings =>
        obtain ⟨names, hnames⟩ := listingsAfter_eq_ok_iff.mp ⟨listings, h⟩ root hroot
        rw [he] at hnames
        cases hnames

/-- Two directories with a resource in common; one has a nested class. -/
def overlappingTree : FileTree where
  workingDirectory := ["work"]
  nodes := [(["work", "app"], .directory), (["work", "app", "Job.class"], .file []),
    (["work", "app", "Job$1.class"], .file []), (["work", "old"], .directory),
    (["work", "old", "Tool.class"], .file []), (["work", "old", "Job.class"], .file [])]
  distinct := by decide

/-- The two directories, the first of them once more at the end. -/
def overlappingSource : Source := ⟨[.directory "app", .directory "old", .directory "app"], false⟩

/-- A directory and an archive that is not there. -/
def brokenSource : Source := ⟨[.directory "app", .archive "gone.jar"], false⟩

theorem listings_of_overlapping_roots :
    (∃ listings, overlappingSource.listings overlappingTree = .ok listings ∧
      listings.map Listing.resources = [["Job.class"], ["Tool.class"], []] ∧
      overlappingSource.Enumerates overlappingTree listings) ∧
    brokenSource.listings overlappingTree = .error (.archive "gone.jar" (.system .notFound)) ∧
      FailsFirst overlappingTree brokenSource.roots (.archive "gone.jar" (.system .notFound)) := by
  have hok : overlappingSource.listings overlappingTree =
      .ok [⟨.directory "app", ["Job.class"], []⟩, ⟨.directory "old", ["Tool.class"], ["Job.class"]⟩,
        ⟨.directory "app", [], ["Job.class"]⟩] := by decide +kernel
  have hfail : brokenSource.listings overlappingTree = .error (.archive "gone.jar" (.system .notFound)) := by
    decide +kernel
  refine ⟨⟨_, hok, rfl, (listings_enumerate_or_fail_first _ _).1 _ hok⟩, hfail, ?_⟩
  exact ((listings_enumerate_or_fail_first _ _).2.2 _).mp hfail

end Source

end MethodScout
