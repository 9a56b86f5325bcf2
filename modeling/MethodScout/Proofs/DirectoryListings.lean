import Mathlib.Data.List.Nodup
import MethodScout.Proofs.Links
import MethodScout.Scan.Root

/-!
# The class files of a directory

The listing of a directory walks down through directories and asks of each node that it meets what its path leads to;
a class is then read by that path. `FileTree.HasClass` says without paths which nodes are class files, and what their
content is. The listing has the way to each of them once, under the names as they are shown; by these names the content
is read if they are UTF-8.
-/

namespace MethodScout

namespace FileTree

/-! ## Nodes below a directory -/

/-- The way goes down from a directory to a node, through directories and past no link. -/
inductive Descends (t : FileTree) : Location → List PathText → Node → Prop
  | last {dir : Location} {name : PathText} {node : Node} :
      t.get? (dir ++ [name]) = some node → Descends t dir [name] node
  | into {dir : Location} {name : PathText} {way : List PathText} {node : Node} :
      t.get? (dir ++ [name]) = some .directory → Descends t (dir ++ [name]) way node → Descends t dir (name :: way) node

variable {t : FileTree} {dir : Location} {way : List PathText} {node : Node}

theorem Descends.ne_nil (h : t.Descends dir way node) : way ≠ [] := by
  cases h with
  | last _ => exact List.cons_ne_nil _ _
  | into _ _ => exact List.cons_ne_nil _ _

theorem descends_iff : t.Descends dir way node ↔ t.reaches dir way = true ∧ t.get? (dir ++ way) = some node := by
  induction way generalizing dir with
  | nil =>
      refine ⟨fun h => absurd rfl h.ne_nil, fun h => ?_⟩
      simp [reaches] at h
  | cons name way ih =>
      cases way with
      | nil =>
          constructor
          · rintro (h | ⟨_, h⟩)
            · exact ⟨rfl, h⟩
            · exact absurd rfl h.ne_nil
          · rintro ⟨-, h⟩
            exact .last h
      | cons next way =>
          have happend : dir ++ name :: next :: way = (dir ++ [name]) ++ next :: way := by simp
          simp only [reaches, Bool.and_eq_true, beq_iff_eq, happend, and_assoc, ← ih]
          constructor
          · rintro (_ | ⟨hdir, h⟩)
            exact ⟨hdir, h⟩
          · rintro ⟨hdir, h⟩
            exact .into hdir h

theorem Descends.get? (h : t.Descends dir way node) : t.get? (dir ++ way) = some node := (descends_iff.mp h).2

theorem Descends.isName (h : t.Descends dir way node) (ht : t.WellNamed) : ∀ name ∈ way, Path.IsName name :=
  fun _ hname => ht.isName h.get? (List.mem_append_right dir hname)

theorem exists_get?_of_mem_nodes {l : Location} (h : (l, node) ∈ t.nodes) :
    ∃ node', t.get? l = some node' ∧ (node' = node ∨ node' = .directory) := by
  unfold FileTree.get?
  split
  · exact ⟨.directory, rfl, .inr rfl⟩
  · refine ⟨node, ?_, .inl rfl⟩
    obtain ⟨before, after, heq⟩ := List.append_of_mem h
    refine List.lookup_eq_some_iff.mpr ⟨before, after, heq, fun p hp => bne_iff_ne.mpr ?_⟩
    rintro rfl
    have hdistinct := t.distinct
    rw [heq, List.map_append, List.map_cons] at hdistinct
    exact (List.nodup_append.mp hdistinct).2.2 _ (List.mem_map_of_mem hp) _ List.mem_cons_self rfl

theorem mem_below_iff : way ∈ t.below dir ↔ t.reaches dir way = true ∧ ∃ node, (dir ++ way, node) ∈ t.nodes := by
  simp only [below, List.mem_filterMap, Option.ite_none_right_eq_some, Bool.and_eq_true, Option.some.injEq,
    List.isPrefixOf_iff_prefix]
  constructor
  · rintro ⟨⟨l, node⟩, hmem, ⟨⟨rest, rfl⟩, hreaches⟩, rfl⟩
    rw [List.drop_left] at hreaches ⊢
    exact ⟨hreaches, node, hmem⟩
  · rintro ⟨hreaches, node, hmem⟩
    exact ⟨_, hmem, by simpa using hreaches, by simp⟩

theorem exists_descends_of_mem_below (h : way ∈ t.below dir) : ∃ node, t.Descends dir way node := by
  obtain ⟨hreaches, _, hmem⟩ := mem_below_iff.mp h
  obtain ⟨node, hnode, -⟩ := exists_get?_of_mem_nodes hmem
  exact ⟨node, descends_iff.mpr ⟨hreaches, hnode⟩⟩

theorem Descends.mem_below (h : t.Descends dir way node) (hnode : node ≠ .directory) : way ∈ t.below dir :=
  mem_below_iff.mpr ⟨(descends_iff.mp h).1, node, mem_nodes_of_get? h.get? hnode⟩

theorem descends_iff_mem_below (hnode : node ≠ .directory) :
    t.Descends dir way node ↔ way ∈ t.below dir ∧ t.get? (dir ++ way) = some node := by
  constructor
  · intro h
    exact ⟨h.mem_below hnode, h.get?⟩
  · rintro ⟨hway, hget⟩
    exact descends_iff.mpr ⟨(mem_below_iff.mp hway).1, hget⟩

theorem nodup_below (t : FileTree) (dir : Location) : (t.below dir).Nodup := by
  have hlocation {n : Location × Node} {way : List PathText}
      (h : (if dir.isPrefixOf n.1 && t.reaches dir (n.1.drop dir.length) then some (n.1.drop dir.length) else none) =
        some way) : n.1 = dir ++ way := by
    obtain ⟨hn, hway⟩ := Option.ite_none_right_eq_some.mp h
    obtain ⟨rest, hrest⟩ := List.isPrefixOf_iff_prefix.mp (Bool.and_eq_true_iff.mp hn).1
    rw [← hrest, List.drop_left] at hway
    rw [← hrest, Option.some.inj hway]
  refine List.pairwise_filterMap.mpr ((List.pairwise_map.mp t.distinct).imp ?_)
  intro n n' hne way hway way' hway' heq
  exact hne (by rw [hlocation hway, hlocation hway', heq])

/-! ## What a node has to give -/

/-- The content of a node of a directory: that of the file, or of the file that the link leads to. The links on the way
to it are counted. -/
inductive Provides (t : FileTree) (dir : Location) : Node → Nat → Bytes → Prop
  | file {content : Bytes} : Provides t dir (.file content) 0 content
  | link {target : PathText} {links : Nat} {l : Location} {content : Bytes} :
      t.Leads (start dir target) (Path.steps target) links l → t.get? l = some (.file content) →
        Provides t dir (.link target) (links + 1) content

theorem Provides.ne_directory {links : Nat} {content : Bytes} (h : t.Provides dir node links content) :
    node ≠ .directory := by
  rintro rfl
  cases h

/-- The way as steps leads where the node at its end does. -/
theorem Descends.leads_iff (h : t.Descends dir way node) (ht : t.WellNamed) (hdir : t.get? dir = some .directory)
    {links : Nat} {content : Bytes} :
    (∃ l, t.Leads dir way links l ∧ t.get? l = some (.file content)) ↔
      t.Provides (dir ++ way.dropLast) node links content := by
  induction h with
  | @last dir name node hnode =>
      have hparent : dir ++ [name].dropLast = dir := by simp
      rw [hparent]
      cases node with
      | link target =>
          simp only [leads_link_iff ht hdir hnode, List.append_nil]
          constructor
          · rintro ⟨l, ⟨more, rfl, hleads⟩, hl⟩
            exact .link hleads hl
          · rintro ⟨⟩
            exact ⟨_, ⟨_, rfl, ‹_›⟩, ‹_›⟩
      | directory =>
          simp only [leads_enter_iff ht hdir hnode (by simp), leads_nil_iff]
          constructor
          · rintro ⟨_, ⟨-, rfl⟩, hl⟩
            simp [hnode] at hl
          · rintro ⟨⟩
      | file content' =>
          simp only [leads_enter_iff ht hdir hnode (by simp), leads_nil_iff]
          constructor
          · rintro ⟨_, ⟨rfl, rfl⟩, hl⟩
            rw [hnode] at hl
            cases hl
            exact .file
          · rintro ⟨⟩
            exact ⟨_, ⟨rfl, rfl⟩, hnode⟩
  | @into dir name way node hname h ih =>
      have hparent : dir ++ (name :: way).dropLast = dir ++ [name] ++ way.dropLast := by
        simp [List.dropLast_cons_of_ne_nil h.ne_nil]
      simp only [leads_enter_iff ht hdir hname (by simp), ih hname, hparent]

/-- A class file below a directory, with its content and the number of links on the way to it: a file or a link to one,
with the ending and something before it as its name. -/
def HasClass (t : FileTree) (dir : Location) (way : List PathText) (links : Nat) (content : Bytes) : Prop :=
  (∃ node, t.Descends dir way node ∧ t.Provides (dir ++ way.dropLast) node links content) ∧
    ∃ last, way.getLast? = some last ∧ Resource.IsClassName last

/-! ## Listing and reading -/

variable {path : PathText} {used : Nat}

/-- The path leads to a directory that the system lets be looked at. -/
structure Opens (t : FileTree) (path : PathText) (used : Nat) (dir : Location) : Prop where
  leadsTo : t.LeadsTo path used dir
  directory : t.get? dir = some .directory
  admits : Admits path
  few : used ≤ linkLimit

theorem exists_opens (ht : t.WellNamed) (h : t.look path = .ok .directory) : ∃ used dir, t.Opens path used dir := by
  obtain ⟨hadmits, used, hused, dir, hleads, hdir⟩ := (look_eq_ok_iff ht).mp h
  exact ⟨used, dir, hleads, hdir, hadmits, hused⟩

theorem exists_opens_of_follow (hfollow : t.follow .look path = .ok dir) (hdir : t.get? dir = some .directory) :
    ∃ used, t.Opens path used dir := by
  obtain ⟨hadmits, hlocate⟩ := follow_eq_ok_iff.mp hfollow
  obtain ⟨used, hused, hleads⟩ := exists_leads_of_locate hlocate hdir
  exact ⟨used, hleads, hdir, hadmits, hused⟩

theorem Opens.follow_eq_ok (h : t.Opens path used dir) (ht : t.WellNamed) : t.follow .look path = .ok dir :=
  follow_eq_ok_iff.mpr ⟨h.admits, h.leadsTo.locate ht h.few⟩

/-- A way below the directory, written behind its path, leads to a file just when the node at its end gives one. -/
theorem Opens.look_join_iff (h : t.Opens path used dir) (ht : t.WellNamed) (hway : t.Descends dir way node)
    {content : Bytes} :
    t.look (Path.join path (Path.ofNames way)) = .ok (.file content) ↔
      (Path.join path (Path.ofNames way)).bytes.length ≤ pathLimit ∧
        ∃ links, used + links ≤ linkLimit ∧ t.Provides (dir ++ way.dropLast) node links content := by
  have hnames := hway.isName ht
  have hpath := h.admits.ne_empty
  rw [look_eq_ok_iff ht]
  simp only [leadsTo_join_iff ht hpath h.leadsTo hway.ne_nil hnames, ← hway.leads_iff ht h.directory]
  constructor
  · rintro ⟨hadmits, _, hfew, l, ⟨links, rfl, hleads⟩, hl⟩
    exact ⟨hadmits.short, links, hfew, l, hleads, hl⟩
  · rintro ⟨hshort, links, hfew, l, hleads, hl⟩
    have hadmits : Admits (Path.join path (Path.ofNames way)) :=
      ⟨Path.nul_not_mem_join hpath hnames h.admits.no_nul, hshort, Path.join_ne_empty hpath hnames⟩
    exact ⟨hadmits, used + links, hfew, l, ⟨links, rfl, hleads⟩, hl⟩

/-- The ways from a directory to the class files that its listing has. -/
def classWays (t : FileTree) (path : PathText) (dir : Location) : List (List PathText) :=
  if Path.isStandardInput path then []
  else (t.below dir).filter fun way =>
    Path.namesClass (Path.ofNames way) && t.isFile (Path.join path (Path.ofNames way))

theorem Opens.classFiles_eq (h : t.Opens path used dir) (ht : t.WellNamed) :
    t.classFiles path = (t.classWays path dir).map Resource.ofNames := by
  unfold classFiles classWays
  split
  · rfl
  · simp [h.follow_eq_ok ht, h.directory]

theorem nodup_classWays (t : FileTree) (path : PathText) (dir : Location) : (t.classWays path dir).Nodup := by
  unfold classWays
  split
  · exact .nil
  · exact (nodup_below t dir).filter _

theorem classWays_of_isStandardInput (h : Path.isStandardInput path = true) : t.classWays path dir = [] := by
  rw [classWays, if_pos h]

/-- The listing has the class files below the directory, as far as the system follows the paths to them. -/
theorem Opens.mem_classWays_iff (h : t.Opens path used dir) (ht : t.WellNamed)
    (hinput : Path.isStandardInput path = false) :
    way ∈ t.classWays path dir ↔ (Path.join path (Path.ofNames way)).bytes.length ≤ pathLimit ∧
      ∃ links content, used + links ≤ linkLimit ∧ t.HasClass dir way links content := by
  rw [classWays, hinput, if_neg Bool.false_ne_true, List.mem_filter, Bool.and_eq_true, isFile_iff]
  constructor
  · rintro ⟨hway, hclass, content, hlook⟩
    obtain ⟨node, hnode⟩ := exists_descends_of_mem_below hway
    obtain ⟨hshort, links, hfew, hprovides⟩ := (h.look_join_iff ht hnode).mp hlook
    exact ⟨hshort, links, content, hfew, ⟨node, hnode, hprovides⟩,
      (Path.namesClass_ofNames hnode.ne_nil (hnode.isName ht)).mp hclass⟩
  · rintro ⟨hshort, links, content, hfew, ⟨node, hnode, hprovides⟩, hclass⟩
    exact ⟨hnode.mem_below hprovides.ne_directory,
      (Path.namesClass_ofNames hnode.ne_nil (hnode.isName ht)).mpr hclass, content,
      (h.look_join_iff ht hnode).mpr ⟨hshort, links, hfew, hprovides⟩⟩

theorem isStandardInput_of_mem_classWays (hway : way ∈ t.classWays path dir) : Path.isStandardInput path = false := by
  apply Bool.eq_false_iff.mpr
  intro hinput
  simp [classWays_of_isStandardInput hinput] at hway

theorem Opens.isName_of_mem_classWays (h : t.Opens path used dir) (ht : t.WellNamed) (hway : way ∈ t.classWays path dir) :
    ∀ name ∈ way, Path.IsName name := by
  have hinput := isStandardInput_of_mem_classWays hway
  obtain ⟨-, links, content, -, ⟨node, hnode, -⟩, -⟩ := (h.mem_classWays_iff ht hinput).mp hway
  exact hnode.isName ht

end FileTree

namespace Root

variable {t : FileTree} {path : PathText}

theorem ofPath_eq_directory_iff : ofPath t path = .ok (.directory path) ↔ t.look path = .ok .directory := by
  unfold ofPath FileTree.pathExists
  rw [← FileTree.isDirectory_iff]
  cases hlook : t.look path with
  | error e => simp [Except.isOk, Except.toBool, FileTree.isDirectory, hlook]
  | ok node =>
      by_cases hdir : t.isDirectory path = true
      · simp [Except.isOk, Except.toBool, hdir]
      · cases t.readArchive path with
        | error e => simp [Except.isOk, Except.toBool, hdir]
        | ok a => simp [Except.isOk, Except.toBool, hdir]

end Root

theorem RootReader.read_directory_eq_ok_iff {t : FileTree} {path : PathText} {name : String} {content : Bytes} :
    (RootReader.directory path).read t name = .ok content ↔ t.look (Path.join path name) = .ok (.file content) := by
  rw [← FileTree.contentOf_eq_ok_iff]
  generalize hcontent : t.contentOf (Path.join path name) = result
  -- the equations of the reader take long to prove
  delta RootReader.read
  dsimp only
  rw [hcontent]
  cases result with
  | error e => simp
  | ok bs => simp

/-- A class file is read by its resource name if the names on the way to it are UTF-8. -/
theorem FileTree.Opens.read_resource {t : FileTree} {path : PathText} {used : Nat} {dir : Location} {way : List PathText}
    (h : t.Opens path used dir) (ht : t.WellNamed) (hway : way ∈ t.classWays path dir) (htext : Path.IsTextual way) :
    ∃ links content, t.HasClass dir way links content ∧
      (RootReader.directory path).read t (Resource.ofNames way) = .ok content := by
  obtain ⟨hshort, links, content, hfew, hclass⟩ :=
    (h.mem_classWays_iff ht (isStandardInput_of_mem_classWays hway)).mp hway
  obtain ⟨node, hnode, hprovides⟩ := hclass.1
  refine ⟨links, content, hclass, ?_⟩
  rw [RootReader.read_directory_eq_ok_iff, Path.ofText_resource htext]
  exact (h.look_join_iff ht hnode).mpr ⟨hshort, links, hfew, hprovides⟩

namespace Root

variable {t : FileTree} {path : PathText}

theorem ofPath_of_opens {used : Nat} {dir : Location} (h : t.Opens path used dir) (ht : t.WellNamed) :
    ofPath t path = .ok (.directory path) :=
  ofPath_eq_directory_iff.mpr
    ((FileTree.look_eq_ok_iff ht).mpr ⟨h.admits, used, h.few, dir, h.leadsTo, h.directory⟩)

theorem classes_of_opens {used : Nat} {dir : Location} (h : t.Opens path used dir) (ht : t.WellNamed) :
    (directory path).classes t = .ok ((t.classWays path dir).map Resource.ofNames) := by
  rw [classes, h.classFiles_eq ht]

/-- The listing of a directory has the ways to class files below it, each once, and shows the names on them. Unless the
path of the directory stands for standard input, these are exactly the class files to which the system follows the path.
Where the names on a way are UTF-8 they are shown as they are: such a way has its name for itself, and by that name its
content is read. -/
theorem classes_of_directory_complete (ht : t.WellNamed) (h : ofPath t path = .ok (.directory path)) :
    ∃ used dir ways, t.Opens path used dir ∧ (directory path).classes t = .ok (ways.map Resource.ofNames) ∧ ways.Nodup ∧
      (Path.isStandardInput path = true → ways = []) ∧
      (Path.isStandardInput path = false → ∀ way, way ∈ ways ↔
        (Path.join path (Path.ofNames way)).bytes.length ≤ FileTree.pathLimit ∧
          ∃ links content, used + links ≤ FileTree.linkLimit ∧ t.HasClass dir way links content) ∧
      (∀ way ∈ ways, Path.IsTextual way ↔ PathText.ofText (Resource.ofNames way) = Path.ofNames way) ∧
      ((ways.filter fun way => Path.IsTextual way).map Resource.ofNames).Nodup ∧
      ∀ way ∈ ways, Path.IsTextual way → ∃ links content reader, t.HasClass dir way links content ∧
        (directory path).reader t = .ok reader ∧ reader.read t (Resource.ofNames way) = .ok content := by
  obtain ⟨used, dir, hopens⟩ := FileTree.exists_opens ht (ofPath_eq_directory_iff.mp h)
  refine ⟨used, dir, t.classWays path dir, hopens, classes_of_opens hopens ht, FileTree.nodup_classWays t path dir,
    FileTree.classWays_of_isStandardInput, fun hinput way => hopens.mem_classWays_iff ht hinput,
    fun way _ => Path.isTextual_iff, ?_, ?_⟩
  · refine ((FileTree.nodup_classWays t path dir).filter _).map_on ?_
    intro way hway way' hway' heq
    obtain ⟨hway, htext⟩ := List.mem_filter.mp hway
    obtain ⟨hway', htext'⟩ := List.mem_filter.mp hway'
    refine Path.ofNames_inj (hopens.isName_of_mem_classWays ht hway) (hopens.isName_of_mem_classWays ht hway') ?_
    rw [← Path.ofText_resource (of_decide_eq_true htext), heq, Path.ofText_resource (of_decide_eq_true htext')]
  · intro way hway htext
    obtain ⟨links, content, hclass, hread⟩ := hopens.read_resource ht hway htext
    exact ⟨links, content, .directory path, hclass, rfl, hread⟩

/-- A directory behind a link, with links to a file, to directories, to themselves and to nothing, and with a name that
is not UTF-8. -/
def linkedTree : FileTree where
  workingDirectory := ["work"]
  nodes := [(["work", "root"], .link "app/"), (["work", "app"], .directory),
    (["work", "app", "Job.class"], .file [1]), (["work", "app", ".class"], .file [2]),
    (["work", "app", ".old"], .directory), (["work", "app", ".old", "Job.class"], .file [3]),
    (["work", "app", "Alias.class"], .link "Chain"), (["work", "app", "Chain"], .link "../store/job"),
    (["work", "app", "Loop.class"], .link "Loop.class"), (["work", "app", "Gone.class"], .link "nowhere"),
    (["work", "app", "again"], .link "../app"), (["work", "app", "Folder.class"], .directory),
    (["work", "app", "Folder.class", "..class"], .file [4]), (["work", "store"], .directory),
    (["work", "store", "job"], .file [5]), (["work", "app", ⟨0xFF :: Text.utf8 ".class"⟩], .file [6])]
  distinct := by decide +kernel

theorem classes_of_directory_complete_linked :
    linkedTree.WellNamed ∧ ofPath linkedTree "root" = .ok (.directory "root") ∧
      ∃ (used : Nat) (dir : Location) (ways : List (List PathText)), linkedTree.Opens "root" used dir ∧
        (directory "root").classes linkedTree = .ok (ways.map Resource.ofNames) ∧
        ways.map Resource.ofNames = ["Job.class", ".old/Job.class", "Alias.class", "Folder.class/..class", "�.class"] ∧
        (∀ way, way ∈ ways ↔ (Path.join "root" (Path.ofNames way)).bytes.length ≤ FileTree.pathLimit ∧
          ∃ links content, used + links ≤ FileTree.linkLimit ∧ linkedTree.HasClass dir way links content) ∧
        ((ways.filter fun way => Path.IsTextual way).map Resource.ofNames).Nodup ∧
        ∀ way ∈ ways, Path.IsTextual way → ∃ links content reader, linkedTree.HasClass dir way links content ∧
          (directory "root").reader linkedTree = .ok reader ∧
            reader.read linkedTree (Resource.ofNames way) = .ok content := by
  have hnamed : linkedTree.WellNamed := by decide +kernel
  have hroot : ofPath linkedTree "root" = .ok (.directory "root") := by decide +kernel
  have hnames : (directory "root").classes linkedTree =
      .ok ["Job.class", ".old/Job.class", "Alias.class", "Folder.class/..class", "�.class"] := by decide +kernel
  obtain ⟨used, dir, ways, hopens, hclasses, -, -, hmem, -, hnodup, hread⟩ := classes_of_directory_complete hnamed hroot
  exact ⟨hnamed, hroot, used, dir, ways, hopens, hclasses, Except.ok.inj (hclasses.symm.trans hnames),
    hmem (by decide +kernel), hnodup, hread⟩

/-- A class name of 246 bytes. -/
def longName : PathText := ⟨List.replicate 240 0x4A ++ Text.utf8 ".class"⟩

def longTree : FileTree where
  workingDirectory := ["work"]
  nodes := [(["work", "app"], .directory), (["work", "app", longName], .file [1])]
  distinct := by decide +kernel

/-- A path of 3899 bytes that stays in a directory all the way. -/
def longPath : PathText := ⟨Text.utf8 "app" ++ (List.replicate 1948 [Path.slash, Path.dot]).flatten⟩

/-- Two class files whose names are shown alike. -/
def maskedTree : FileTree where
  workingDirectory := ["work"]
  nodes := [(["work", "app"], .directory), (["work", "app", ⟨0xFF :: Text.utf8 ".class"⟩], .file [1]),
    (["work", "app", ⟨0xFE :: Text.utf8 ".class"⟩], .file [2])]
  distinct := by decide +kernel

/-- A directory whose name stands for standard input. -/
def dashTree : FileTree where
  workingDirectory := ["work"]
  nodes := [(["work", "-"], .directory), (["work", "-", "Job.class"], .file [1])]
  distinct := by decide +kernel

/-- Class files of which the listing has not what it should have: one whose path is longer than the system allows, two
whose names are shown alike, and one below a directory whose name stands for standard input. -/
theorem classes_of_directory_falls_short :
    (longTree.WellNamed ∧ ofPath longTree longPath = .ok (.directory longPath) ∧
      (∃ used, longTree.Opens longPath used ["work", "app"]) ∧ longTree.HasClass ["work", "app"] [longName] 0 [1] ∧
      (directory longPath).classes longTree = .ok []) ∧
    (maskedTree.WellNamed ∧ ofPath maskedTree "app" = .ok (.directory "app") ∧
      (∃ used, maskedTree.Opens "app" used ["work", "app"]) ∧
      maskedTree.HasClass ["work", "app"] [⟨0xFF :: Text.utf8 ".class"⟩] 0 [1] ∧
      maskedTree.HasClass ["work", "app"] [⟨0xFE :: Text.utf8 ".class"⟩] 0 [2] ∧
      (directory "app").classes maskedTree = .ok ["�.class", "�.class"] ∧
      (RootReader.directory "app").read maskedTree "�.class" =
        .error (.resourceUnavailable "app/�.class" (.system .notFound))) ∧
    (dashTree.WellNamed ∧ ofPath dashTree "-" = .ok (.directory "-") ∧
      (∃ used, dashTree.Opens "-" used ["work", "-"]) ∧ dashTree.HasClass ["work", "-"] ["Job.class"] 0 [1] ∧
      (RootReader.directory "-").read dashTree "Job.class" = .ok [1] ∧ (directory "-").classes dashTree = .ok []) := by
  have hclass (stem : PathText) (hstem : stem ≠ "") : Resource.IsClassName (stem ++ Resource.ending) := ⟨stem, hstem, rfl⟩
  refine ⟨?_, ?_, ?_⟩
  · have hnamed : longTree.WellNamed := by decide +kernel
    obtain ⟨used, hopens⟩ : ∃ used, longTree.Opens longPath used ["work", "app"] :=
      FileTree.exists_opens_of_follow (by decide +kernel) (by decide +kernel)
    have hways : longTree.classWays longPath ["work", "app"] = [] := by decide +kernel
    refine ⟨hnamed, ofPath_of_opens hopens hnamed, ⟨used, hopens⟩, ?_, ?_⟩
    · exact ⟨⟨.file [1], .last (by decide +kernel), .file⟩, longName, rfl,
        hclass ⟨List.replicate 240 0x4A⟩ (by decide +kernel)⟩
    · rw [classes_of_opens hopens hnamed, hways, List.map_nil]
  · have hnamed : maskedTree.WellNamed := by decide +kernel
    obtain ⟨used, hopens⟩ : ∃ used, maskedTree.Opens "app" used ["work", "app"] :=
      FileTree.exists_opens_of_follow (by decide +kernel) (by decide +kernel)
    refine ⟨hnamed, ofPath_of_opens hopens hnamed, ⟨used, hopens⟩, ?_, ?_, by decide +kernel, by decide +kernel⟩
    · exact ⟨⟨.file [1], .last (by decide +kernel), .file⟩, _, rfl, hclass ⟨[0xFF]⟩ (by decide +kernel)⟩
    · exact ⟨⟨.file [2], .last (by decide +kernel), .file⟩, _, rfl, hclass ⟨[0xFE]⟩ (by decide +kernel)⟩
  · have hnamed : dashTree.WellNamed := by decide +kernel
    obtain ⟨used, hopens⟩ : ∃ used, dashTree.Opens "-" used ["work", "-"] :=
      FileTree.exists_opens_of_follow (by decide +kernel) (by decide +kernel)
    refine ⟨hnamed, ofPath_of_opens hopens hnamed, ⟨used, hopens⟩, ?_, by decide +kernel, by decide +kernel⟩
    exact ⟨⟨.file [1], .last (by decide +kernel), .file⟩, _, rfl, hclass "Job" (by decide +kernel)⟩

end Root

end MethodScout
