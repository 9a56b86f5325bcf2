import MethodScout.Proofs.Scans

/-!
# What scans read

The resources of a scan are listed and read, and those that cannot be decoded are refused or skipped. All this can be told
apart from what is then said of the classes: `Scan.gather` gives the contents of the resources that are taken from the
roots at some paths, each of them once, and succeeds just when every root can be listed and every resource can be read.
-/

namespace MethodScout

namespace FileTree

/-- The resource is scanned, and the root at the path is the first one that lists it. -/
def Takes (t : FileTree) (includeNested : Bool) (paths : List PathText) (path : PathText) (r : String) : Prop :=
  ∃ before after, paths = before ++ path :: after ∧ Resource.isScannable includeNested r = true ∧ t.Lists path r ∧
    ∀ earlier ∈ before, ¬t.Lists earlier r

variable {t : FileTree} {includeNested : Bool} {paths : List PathText} {path : PathText} {r : String}

theorem Takes.exists_root (h : t.Takes includeNested paths path r) : ∃ root, Root.ofPath t path = .ok root := by
  obtain ⟨_, _, _, _, ⟨root, _, hroot, _⟩, _⟩ := h
  exact ⟨root, hroot⟩

theorem exists_takes_iff :
    (∃ path, t.Takes includeNested paths path r) ↔
      Resource.isScannable includeNested r = true ∧ ∃ path ∈ paths, t.Lists path r := by
  constructor
  · rintro ⟨path, before, after, rfl, hscannable, hlists, -⟩
    exact ⟨hscannable, path, by simp, hlists⟩
  · rintro ⟨hscannable, path, hpath, hlists⟩
    induction paths with
    | nil => cases hpath
    | cons first paths ih =>
        by_cases hfirst : t.Lists first r
        · exact ⟨first, [], paths, rfl, hscannable, hfirst, by simp⟩
        · rcases List.mem_cons.mp hpath with rfl | hpath
          · exact absurd hlists hfirst
          · obtain ⟨path', before, after, rfl, hscannable, hlists, hbefore⟩ := ih hpath
            exact ⟨path', first :: before, after, rfl, hscannable, hlists,
              List.forall_mem_cons.mpr ⟨hfirst, hbefore⟩⟩

/-- The roots at the paths can be opened and listed, and the resources that are taken from them can be read. -/
structure Readable (t : FileTree) (includeNested : Bool) (paths : List PathText) : Prop where
  roots : ∀ path ∈ paths, ∃ root names, Root.ofPath t path = .ok root ∧ root.classes t = .ok names
  resources : ∀ path r, t.Takes includeNested paths path r → ∃ bs, t.Gives path r bs

end FileTree

namespace Scan

variable {t : FileTree} {includeNested skipInvalid : Bool} {paths : List PathText}

/-- A class resource that was read. -/
structure Content where
  resource : String
  bytes : Bytes
  deriving DecidableEq

namespace Content

def Valid (c : Content) : Prop := ∃ file, ClassFile.decode c.bytes = .ok file

def file? (c : Content) : Option ClassFile := (ClassFile.decode c.bytes).toOption

/-- Refuses a resource that cannot be decoded, unless such ones are skipped. -/
def check (skipInvalid : Bool) (c : Content) : Except ScanFault Content :=
  match ClassFile.decode c.bytes with
  | .ok _ => .ok c
  | .error e => if skipInvalid then .ok c else .error (.decode (Resource.className c.resource) e)

theorem file?_eq_some_iff {c : Content} {file : ClassFile} :
    c.file? = some file ↔ ClassFile.decode c.bytes = .ok file := by
  unfold file?
  cases ClassFile.decode c.bytes with
  | ok _ => simp [Except.toOption]
  | error _ => simp [Except.toOption]

theorem check_eq_ok_iff {c c' : Content} :
    c.check skipInvalid = .ok c' ↔ c = c' ∧ (skipInvalid = true ∨ c.Valid) := by
  unfold check Valid
  cases ClassFile.decode c.bytes with
  | ok _ => simp
  | error _ => cases skipInvalid <;> simp

theorem check_eq_error {c : Content} {e : ScanFault} (h : c.check skipInvalid = .error e) :
    ∃ fault, ClassFile.decode c.bytes = .error fault ∧ e = .decode (Resource.className c.resource) fault := by
  unfold check at h
  cases hc : ClassFile.decode c.bytes with
  | ok _ =>
      rw [hc] at h
      cases h
  | error fault =>
      rw [hc] at h
      cases skipInvalid with
      | true => cases h
      | false =>
          cases h
          exact ⟨fault, rfl, rfl⟩

end Content

/-! ## Reading one resource -/

namespace Task

def content (t : FileTree) (task : Task) : Except ScanFault Content :=
  match task.reader with
  | .error e => .error (.resourceUnavailable task.resource (.closed task.root.path e))
  | .ok reader => (reader.read t task.resource).map (⟨task.resource, ·⟩)

def fetch (t : FileTree) (skipInvalid : Bool) (task : Task) : Except ScanFault Content :=
  task.content t >>= Content.check skipInvalid

theorem content_eq_ok_iff {task : Task} {c : Content} :
    task.content t = .ok c ↔
      ∃ reader, task.reader = .ok reader ∧ reader.read t task.resource = .ok c.bytes ∧ task.resource = c.resource := by
  unfold content
  cases task.reader with
  | error e => simp
  | ok reader =>
      obtain ⟨resource, bytes⟩ := c
      simp only [Attempt.map_eq_ok, Content.mk.injEq, Except.ok.injEq, exists_eq_left']
      constructor
      · rintro ⟨bs, hbs, hresource, rfl⟩
        exact ⟨hbs, hresource⟩
      · rintro ⟨hbs, hresource⟩
        exact ⟨bytes, hbs, hresource, rfl⟩

theorem fetch_eq_ok_iff {task : Task} {c : Content} :
    task.fetch t skipInvalid = .ok c ↔ task.content t = .ok c ∧ (skipInvalid = true ∨ c.Valid) := by
  simp only [fetch, Attempt.bind_eq_ok, Content.check_eq_ok_iff]
  constructor
  · rintro ⟨c', hc', rfl, h⟩
    exact ⟨hc', h⟩
  · rintro ⟨hc, h⟩
    exact ⟨c, hc, rfl, h⟩

end Task

/-! ## Listing the roots at some paths -/

/-- Opens the roots at some paths and lists them. -/
def listPaths (t : FileTree) (includeNested : Bool) (paths : List PathText) : Except ScanFault (List Listing) := do
  let source ← Source.ofPaths t paths includeNested
  source.listings t

variable {listings : List Listing}

theorem listPaths_eq_ok_iff :
    listPaths t includeNested paths = .ok listings ↔
      ∃ roots, paths.mapM (Root.ofPath t) = .ok roots ∧
        Source.listingsAfter t includeNested [] roots = .ok listings := by
  simp only [listPaths, Source.ofPaths, Attempt.bind_eq_ok]
  constructor
  · rintro ⟨_, ⟨roots, hroots, hsource⟩, h⟩
    cases hsource
    exact ⟨roots, hroots, h⟩
  · rintro ⟨roots, hroots, h⟩
    exact ⟨_, ⟨roots, hroots, rfl⟩, h⟩

theorem length_of_listPaths (h : listPaths t includeNested paths = .ok listings) : listings.length = paths.length := by
  obtain ⟨roots, hroots, h⟩ := listPaths_eq_ok_iff.mp h
  rw [(Attempt.mapM_eq_ok.mp hroots).length_eq, ← Source.roots_of_listingsAfter h, List.length_map]

theorem exists_listPaths_eq_ok :
    (∃ listings, listPaths t includeNested paths = .ok listings) ↔
      ∀ path ∈ paths, ∃ root names, Root.ofPath t path = .ok root ∧ root.classes t = .ok names := by
  constructor
  · rintro ⟨listings, h⟩ path hpath
    obtain ⟨roots, hroots, h⟩ := listPaths_eq_ok_iff.mp h
    obtain ⟨root, hroot⟩ := Attempt.exists_mapM_eq_ok.mp ⟨roots, hroots⟩ path hpath
    have hmem : root ∈ roots := (Attempt.mem_of_mapM_eq_ok hroots).mpr ⟨path, hpath, hroot⟩
    obtain ⟨names, hnames⟩ := Source.listingsAfter_eq_ok_iff.mp ⟨listings, h⟩ root hmem
    exact ⟨root, names, hroot, hnames⟩
  · intro h
    obtain ⟨roots, hroots⟩ : ∃ roots, paths.mapM (Root.ofPath t) = .ok roots := by
      apply Attempt.exists_mapM_eq_ok.mpr
      intro path hpath
      obtain ⟨root, _, hroot, -⟩ := h path hpath
      exact ⟨root, hroot⟩
    obtain ⟨listings, hlistings⟩ : ∃ listings, Source.listingsAfter t includeNested [] roots = .ok listings := by
      apply Source.listingsAfter_eq_ok_iff.mpr
      intro root hmem
      obtain ⟨path, hpath, hroot⟩ := (Attempt.mem_of_mapM_eq_ok hroots).mp hmem
      obtain ⟨root', names, hroot', hnames⟩ := h path hpath
      rw [hroot] at hroot'
      cases hroot'
      exact ⟨names, hnames⟩
    exact ⟨listings, listPaths_eq_ok_iff.mpr ⟨roots, hroots, hlistings⟩⟩

/-- There is a task for every resource, with the root that it is taken from. -/
theorem mem_tasks_iff_takes (h : listPaths t includeNested paths = .ok listings) {task : Task} :
    task ∈ tasks t listings ↔ ∃ path, t.Takes includeNested paths path task.resource ∧
      Root.ofPath t path = .ok task.root ∧ task.reader = task.root.reader t := by
  obtain ⟨roots, hroots, h⟩ := listPaths_eq_ok_iff.mp h
  have hlisted := Source.mem_listingsAfter (Attempt.mapM_eq_ok.mp hroots) h
  rw [mem_tasks]
  constructor
  · rintro ⟨l, hl, r, hr, rfl⟩
    obtain ⟨before, path, after, hpaths, hpath, hscannable, -, hlists, hbefore⟩ :=
      (hlisted l.root r).mp ⟨l, hl, rfl, hr⟩
    exact ⟨path, ⟨before, after, hpaths, hscannable, hlists, hbefore⟩, hpath, rfl⟩
  · rintro ⟨path, ⟨before, after, hpaths, hscannable, hlists, hbefore⟩, hpath, hreader⟩
    obtain ⟨l, hl, hroot, hr⟩ := (hlisted task.root task.resource).mpr
      ⟨before, path, after, hpaths, hpath, hscannable, List.not_mem_nil, hlists, hbefore⟩
    refine ⟨l, hl, task.resource, hr, ?_⟩
    rw [hroot, ← hreader]

theorem exists_task_of_takes (h : listPaths t includeNested paths = .ok listings) {path : PathText} {r : String}
    (htakes : t.Takes includeNested paths path r) :
    ∃ root, Root.ofPath t path = .ok root ∧ ⟨root, root.reader t, r⟩ ∈ tasks t listings := by
  obtain ⟨root, hroot⟩ := htakes.exists_root
  exact ⟨root, hroot, (mem_tasks_iff_takes h).mpr ⟨path, htakes, hroot, rfl⟩⟩

theorem mem_resources_iff (h : listPaths t includeNested paths = .ok listings) {r : String} :
    r ∈ listings.flatMap Listing.resources ↔
      Resource.isScannable includeNested r = true ∧ ∃ path ∈ paths, t.Lists path r := by
  rw [← FileTree.exists_takes_iff, List.mem_flatMap]
  constructor
  · rintro ⟨l, hl, hr⟩
    obtain ⟨path, htakes, -⟩ := (mem_tasks_iff_takes h).mp (mem_tasks.mpr ⟨l, hl, r, hr, rfl⟩)
    exact ⟨path, htakes⟩
  · rintro ⟨path, htakes⟩
    obtain ⟨root, -, htask⟩ := exists_task_of_takes h htakes
    obtain ⟨l, hl, r', hr', heq⟩ := mem_tasks.mp htask
    cases heq
    exact ⟨l, hl, hr'⟩

/-! ## Reading all resources -/

def fetchAll (t : FileTree) (skipInvalid : Bool) (listings : List Listing) : Except ScanFault (List Content) :=
  (tasks t listings).mapM (Task.fetch t skipInvalid)

/-- Reads and checks the class resources that are taken from the roots at some paths. -/
def gather (t : FileTree) (includeNested skipInvalid : Bool) (paths : List PathText) :
    Except ScanFault (List Content) :=
  listPaths t includeNested paths >>= fetchAll t skipInvalid

theorem fetchAll_eq_ok_iff {contents : List Content} :
    fetchAll t skipInvalid listings = .ok contents ↔ (tasks t listings).mapM (Task.content t) = .ok contents ∧
      (skipInvalid = true ∨ ∀ c ∈ contents, c.Valid) := by
  rw [fetchAll, Attempt.mapM_eq_ok, Attempt.mapM_eq_ok]
  constructor
  · intro h
    refine ⟨h.imp fun _ _ hc => (Task.fetch_eq_ok_iff.mp hc).1, ?_⟩
    cases skipInvalid with
    | true => exact .inl rfl
    | false =>
        right
        intro c hc
        obtain ⟨task, -, hfetch⟩ := (Attempt.mem_of_mapM_eq_ok (Attempt.mapM_eq_ok.mpr h)).mp hc
        simpa using (Task.fetch_eq_ok_iff.mp hfetch).2
  · rintro ⟨h, hvalid⟩
    -- the resources are checked one by one, so the list of tasks may be any list
    generalize tasks t listings = all at h ⊢
    induction h with
    | nil => exact .nil
    | cons hc hcs ih =>
        have hfirst := hvalid.imp_right fun hall => hall _ List.mem_cons_self
        have hrest := hvalid.imp_right fun hall c hc => hall c (List.mem_cons_of_mem _ hc)
        exact .cons (Task.fetch_eq_ok_iff.mpr ⟨hc, hfirst⟩) (ih hrest)

theorem gather_eq_ok_iff {contents : List Content} :
    gather t includeNested skipInvalid paths = .ok contents ↔
      gather t includeNested true paths = .ok contents ∧
        (skipInvalid = true ∨ ∀ c ∈ contents, c.Valid) := by
  simp only [gather, Attempt.bind_eq_ok, fetchAll_eq_ok_iff, true_or, and_true]
  constructor
  · rintro ⟨listings, hlistings, hcontents, hvalid⟩
    exact ⟨⟨listings, hlistings, hcontents⟩, hvalid⟩
  · rintro ⟨⟨listings, hlistings, hcontents⟩, hvalid⟩
    exact ⟨listings, hlistings, hcontents, hvalid⟩

/-- The contents of the resources that are taken from the roots at the paths, each of them once. -/
structure Covers (t : FileTree) (includeNested : Bool) (paths : List PathText) (contents : List Content) : Prop where
  once : (contents.map Content.resource).Nodup
  mem_iff : ∀ c, c ∈ contents ↔
    ∃ path, t.Takes includeNested paths path c.resource ∧ t.Gives path c.resource c.bytes
  complete : ∀ path r, t.Takes includeNested paths path r → r ∈ contents.map Content.resource

theorem content_eq_ok_iff_gives {path : PathText} {task : Task} {c : Content} (hroot : Root.ofPath t path = .ok task.root)
    (hreader : task.reader = task.root.reader t) :
    task.content t = .ok c ↔ task.resource = c.resource ∧ t.Gives path c.resource c.bytes := by
  rw [Task.content_eq_ok_iff, hreader]
  constructor
  · rintro ⟨reader, hreader, hbytes, hresource⟩
    exact ⟨hresource, task.root, reader, hroot, hreader, hresource ▸ hbytes⟩
  · rintro ⟨hresource, root, reader, hroot', hreader, hbytes⟩
    rw [hroot] at hroot'
    cases hroot'
    exact ⟨reader, hreader, hresource ▸ hbytes, hresource⟩

theorem resources_of_contents {contents : List Content} (h : (tasks t listings).mapM (Task.content t) = .ok contents) :
    contents.map Content.resource = listings.flatMap Listing.resources := by
  have htasks : (tasks t listings).map Task.resource = listings.flatMap Listing.resources := by
    simp [tasks, List.map_flatMap, Function.comp_def]
  rw [Attempt.mapM_eq_ok] at h
  rw [← htasks]
  generalize tasks t listings = all at h ⊢
  induction h with
  | nil => rfl
  | cons hc _ ih =>
      obtain ⟨_, _, _, hresource⟩ := Task.content_eq_ok_iff.mp hc
      rw [List.map_cons, List.map_cons, hresource, ih]

theorem exists_content_of_takes {contents : List Content} {path : PathText} {r : String}
    (hlistings : listPaths t includeNested paths = .ok listings)
    (hcontents : (tasks t listings).mapM (Task.content t) = .ok contents)
    (htakes : t.Takes includeNested paths path r) : ∃ bs, t.Gives path r bs ∧ ⟨r, bs⟩ ∈ contents := by
  obtain ⟨root, hroot, htask⟩ := exists_task_of_takes hlistings htakes
  obtain ⟨⟨_, bs⟩, hc⟩ := Attempt.exists_mapM_eq_ok.mp ⟨contents, hcontents⟩ _ htask
  obtain ⟨rfl, hgives⟩ := (content_eq_ok_iff_gives hroot rfl).mp hc
  exact ⟨bs, hgives, (Attempt.mem_of_mapM_eq_ok hcontents).mpr ⟨_, htask, hc⟩⟩

theorem covers_of_gather {contents : List Content} (h : gather t includeNested skipInvalid paths = .ok contents) :
    Covers t includeNested paths contents := by
  obtain ⟨listings, hlistings, h⟩ := Attempt.bind_eq_ok.mp h
  have hcontents := (fetchAll_eq_ok_iff.mp h).1
  have hresources := resources_of_contents hcontents
  refine ⟨?_, ?_, ?_⟩
  · obtain ⟨roots, -, hroots⟩ := listPaths_eq_ok_iff.mp hlistings
    rw [hresources]
    exact (Source.enumerates_of_listings (s := ⟨roots, includeNested⟩) hroots).once
  · intro c
    rw [Attempt.mem_of_mapM_eq_ok hcontents]
    constructor
    · rintro ⟨task, htask, hc⟩
      obtain ⟨path, htakes, hroot, hreader⟩ := (mem_tasks_iff_takes hlistings).mp htask
      obtain ⟨hresource, hgives⟩ := (content_eq_ok_iff_gives hroot hreader).mp hc
      exact ⟨path, hresource ▸ htakes, hgives⟩
    · rintro ⟨path, htakes, root, reader, hroot, hreader, hbytes⟩
      have htask : ⟨root, root.reader t, c.resource⟩ ∈ tasks t listings :=
        (mem_tasks_iff_takes hlistings).mpr ⟨path, htakes, hroot, rfl⟩
      exact ⟨_, htask, (content_eq_ok_iff_gives hroot rfl).mpr ⟨rfl, root, reader, hroot, hreader, hbytes⟩⟩
  · intro path r htakes
    obtain ⟨bs, -, hmem⟩ := exists_content_of_takes hlistings hcontents htakes
    exact List.mem_map.mpr ⟨_, hmem, rfl⟩

/-- All resources are read just when nothing stands in the way of it. -/
theorem exists_gather_eq_ok :
    (∃ contents, gather t includeNested true paths = .ok contents) ↔ t.Readable includeNested paths := by
  constructor
  · rintro ⟨contents, h⟩
    obtain ⟨listings, hlistings, h⟩ := Attempt.bind_eq_ok.mp h
    refine ⟨exists_listPaths_eq_ok.mp ⟨listings, hlistings⟩, ?_⟩
    intro path r htakes
    obtain ⟨bs, hgives, -⟩ := exists_content_of_takes hlistings (fetchAll_eq_ok_iff.mp h).1 htakes
    exact ⟨bs, hgives⟩
  · rintro ⟨hroots, hresources⟩
    obtain ⟨listings, hlistings⟩ := exists_listPaths_eq_ok.mpr hroots
    have hcontents : ∀ task ∈ tasks t listings, ∃ c, task.content t = .ok c := by
      intro task htask
      obtain ⟨path, htakes, hroot, hreader⟩ := (mem_tasks_iff_takes hlistings).mp htask
      obtain ⟨bs, hbs⟩ := hresources path task.resource htakes
      exact ⟨⟨task.resource, bs⟩, (content_eq_ok_iff_gives hroot hreader).mpr ⟨rfl, hbs⟩⟩
    obtain ⟨contents, hcontents⟩ := Attempt.exists_mapM_eq_ok.mpr hcontents
    exact ⟨contents, Attempt.bind_eq_ok.mpr ⟨listings, hlistings, fetchAll_eq_ok_iff.mpr ⟨hcontents, .inl rfl⟩⟩⟩

end Scan

end MethodScout
