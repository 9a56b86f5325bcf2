import MethodScout.Proofs.Attempts
import MethodScout.Proofs.PathNames

/-!
# Following paths

`FileTree.Leads` says where steps lead in a file tree, and past how many links, without a limit on them. The tree is
looked at along a path just when the steps of the path lead to a node and the path keeps to the limits of the system.
-/

namespace MethodScout.FileTree

/-- Every name in the tree is one that a node can have. -/
structure WellNamed (t : FileTree) : Prop where
  above : ∀ name ∈ t.workingDirectory, Path.IsName name
  nodes : ∀ n ∈ t.nodes, ∀ name ∈ n.1, Path.IsName name

instance (t : FileTree) : Decidable t.WellNamed :=
  decidable_of_iff ((∀ name ∈ t.workingDirectory, Path.IsName name) ∧ ∀ n ∈ t.nodes, ∀ name ∈ n.1, Path.IsName name)
    ⟨fun h => ⟨h.1, h.2⟩, fun h => ⟨h.above, h.nodes⟩⟩

/-- Where the target of a link in a directory, or a path in the working directory, starts from. -/
def start (dir : Location) (path : PathText) : Location := if Path.isAbsolute path then [] else dir

/-- The steps lead from one location to another, past so many links. -/
inductive Leads (t : FileTree) : Location → List PathText → Nat → Location → Prop
  | done {l : Location} : Leads t l [] 0 l
  | stay {dir l : Location} {name : PathText} {rest : List PathText} {links : Nat} :
      t.get? dir = some .directory → name = "." ∨ name = "" → Leads t dir rest links l →
        Leads t dir (name :: rest) links l
  | up {dir l : Location} {rest : List PathText} {links : Nat} :
      t.get? dir = some .directory → Leads t dir.dropLast rest links l → Leads t dir (".." :: rest) links l
  | enter {dir l : Location} {name : PathText} {rest : List PathText} {links : Nat} {node : Node} :
      t.get? dir = some .directory → t.get? (dir ++ [name]) = some node → (∀ target, node ≠ .link target) →
        Leads t (dir ++ [name]) rest links l → Leads t dir (name :: rest) links l
  | link {dir l : Location} {name target : PathText} {rest : List PathText} {links : Nat} :
      t.get? dir = some .directory → t.get? (dir ++ [name]) = some (.link target) →
        Leads t (start dir target) (Path.steps target ++ rest) links l → Leads t dir (name :: rest) (links + 1) l

variable {t : FileTree} {dir l : Location} {name : PathText} {rest steps : List PathText} {links : Nat} {node : Node}

theorem mem_nodes_of_get? (h : t.get? l = some node) (hnode : node ≠ .directory) : (l, node) ∈ t.nodes := by
  unfold get? at h
  split at h
  · exact absurd (Option.some.inj h).symm hnode
  · obtain ⟨before, after, heq, -⟩ := List.lookup_eq_some_iff.mp h
    simp [heq]

theorem WellNamed.isName (ht : t.WellNamed) (h : t.get? l = some node) (hname : name ∈ l) : Path.IsName name := by
  unfold get? at h
  split at h
  · rename_i hprefix
    obtain ⟨more, hmore⟩ := List.isPrefixOf_iff_prefix.mp hprefix
    exact ht.above name (hmore ▸ List.mem_append_left more hname)
  · obtain ⟨before, after, heq, -⟩ := List.lookup_eq_some_iff.mp h
    exact ht.nodes (l, node) (by simp [heq]) name hname

theorem WellNamed.isName_last (ht : t.WellNamed) (h : t.get? (dir ++ [name]) = some node) : Path.IsName name :=
  ht.isName h (by simp)

/-! ## One step -/

/-- What becomes of the steps behind a link, when so many links may be followed. -/
def pastLink (t : FileTree) : (links : Nat) → Location → List PathText → Except FileError Location
  | 0, _, _ => .error .tooManyLinks
  | links + 1, dir, steps => t.locate .look links dir steps

theorem locate_eq_walk (links : Nat) : t.locate .look links = t.walk .look (t.pastLink links) := by
  cases links with
  | zero => rfl
  | succ links => rfl

theorem locate_nil : t.locate .look links dir [] = .ok dir := by
  rw [locate_eq_walk]
  rfl

theorem locate_stay (hdir : t.get? dir = some .directory) (hname : name = "." ∨ name = "") :
    t.locate .look links dir (name :: rest) = t.locate .look links dir rest := by
  simp [locate_eq_walk, walk, hdir, hname]

theorem locate_up (hdir : t.get? dir = some .directory) :
    t.locate .look links dir (".." :: rest) = t.locate .look links dir.dropLast rest := by
  simp [locate_eq_walk, walk, hdir]

theorem locate_enter (hdir : t.get? dir = some .directory) (hname : Path.IsName name)
    (hnode : t.get? (dir ++ [name]) = some node) (hlink : ∀ target, node ≠ .link target) :
    t.locate .look links dir (name :: rest) = t.locate .look links (dir ++ [name]) rest := by
  cases node with
  | link target => exact absurd rfl (hlink target)
  | _ =>
      simp [locate_eq_walk, walk, hdir, hnode, hname.ne_empty, hname.ne_here, hname.ne_above,
        Nat.not_lt.mpr hname.short]

theorem locate_link {target : PathText} (hdir : t.get? dir = some .directory) (hname : Path.IsName name)
    (hnode : t.get? (dir ++ [name]) = some (.link target)) :
    t.locate .look links dir (name :: rest) = t.pastLink links (start dir target) (Path.steps target ++ rest) := by
  simp [locate_eq_walk, walk, hdir, hnode, hname.ne_empty, hname.ne_here, hname.ne_above, Nat.not_lt.mpr hname.short,
    start]

theorem Leads.locate (ht : t.WellNamed) {used : Nat} (h : t.Leads dir steps used l) (hused : used ≤ links) :
    t.locate .look links dir steps = .ok l := by
  induction h generalizing links with
  | done => exact locate_nil
  | stay hdir hname _ ih => rw [locate_stay hdir hname, ih hused]
  | up hdir _ ih => rw [locate_up hdir, ih hused]
  | enter hdir hnode hlink _ ih => rw [locate_enter hdir (ht.isName_last hnode) hnode hlink, ih hused]
  | link hdir hnode _ ih =>
      obtain ⟨links, rfl⟩ := Nat.exists_eq_add_of_le' (Nat.le_of_add_left_le hused)
      rw [locate_link hdir (ht.isName_last hnode) hnode]
      exact ih (by omega)

/-- What a step does that succeeds. -/
theorem locate_cons_eq_ok (h : t.locate .look links dir (name :: rest) = .ok l) :
    t.get? dir = some .directory ∧
      ((name = "." ∨ name = "") ∧ t.locate .look links dir rest = .ok l ∨
        name = ".." ∧ t.locate .look links dir.dropLast rest = .ok l ∨
        t.get? (dir ++ [name]) = none ∧ l = dir ++ [name] ∨
        (∃ node, t.get? (dir ++ [name]) = some node ∧ (∀ target, node ≠ .link target) ∧
          t.locate .look links (dir ++ [name]) rest = .ok l) ∨
        ∃ target, t.get? (dir ++ [name]) = some (.link target) ∧
          t.pastLink links (start dir target) (Path.steps target ++ rest) = .ok l) := by
  rw [locate_eq_walk, walk] at h
  simp only [reduceCtorEq, and_false, false_and, ↓reduceIte] at h
  split at h
  · cases h
  · rename_i hdir
    refine ⟨by simpa using hdir, ?_⟩
    split at h
    · exact .inl ⟨‹_›, by rwa [locate_eq_walk]⟩
    · split at h
      · exact .inr (.inl ⟨‹_›, by rwa [locate_eq_walk]⟩)
      · split at h
        · cases h
        · right; right
          split at h
          · split at h
            · cases h
              exact .inl ⟨‹_›, rfl⟩
            · cases h
          · exact .inr (.inr ⟨_, ‹_›, h⟩)
          · rename_i node hlink hnode
            exact .inr (.inl ⟨node, hnode, fun target heq => hlink target (heq ▸ rfl), by rwa [locate_eq_walk]⟩)

/-- The steps up to the first link, when it is known where the steps behind a link lead. -/
theorem exists_leads_of_pastLink
    (hpast : ∀ {dir : Location} {steps : List PathText}, t.pastLink links dir steps = .ok l →
      ∃ used < links, t.Leads dir steps used l)
    (h : t.locate .look links dir steps = .ok l) (hnode : t.get? l = some node) :
    ∃ used ≤ links, t.Leads dir steps used l := by
  induction steps generalizing dir with
  | nil =>
      rw [locate_nil] at h
      cases h
      exact ⟨0, Nat.zero_le _, .done⟩
  | cons name rest ih =>
      obtain ⟨hdir, ⟨hname, hrest⟩ | ⟨hname, hrest⟩ | ⟨hnone, hl⟩ | ⟨node', hnode', hlink, hrest⟩ |
        ⟨target, hlink, hrest⟩⟩ := locate_cons_eq_ok h
      · obtain ⟨used, hused, hleads⟩ := ih hrest
        exact ⟨used, hused, .stay hdir hname hleads⟩
      · obtain ⟨used, hused, hleads⟩ := ih hrest
        exact ⟨used, hused, hname ▸ .up hdir hleads⟩
      · simp [hl, hnone] at hnode
      · obtain ⟨used, hused, hleads⟩ := ih hrest
        exact ⟨used, hused, .enter hdir hnode' hlink hleads⟩
      · obtain ⟨used, hused, hleads⟩ := hpast hrest
        exact ⟨used + 1, hused, .link hdir hlink hleads⟩

theorem exists_leads_of_locate (h : t.locate .look links dir steps = .ok l) (hnode : t.get? l = some node) :
    ∃ used ≤ links, t.Leads dir steps used l := by
  induction links generalizing dir steps with
  | zero => exact exists_leads_of_pastLink (fun hpast => by cases hpast) h hnode
  | succ links ih =>
      apply exists_leads_of_pastLink _ h hnode
      intro dir steps hpast
      obtain ⟨used, hused, h⟩ := ih hpast
      exact ⟨used, Nat.lt_succ_of_le hused, h⟩

/-! ## Where steps lead -/

section

variable (ht : t.WellNamed) (hdir : t.get? dir = some .directory)

theorem leads_nil_iff : t.Leads dir [] links l ↔ links = 0 ∧ l = dir := by
  constructor
  · rintro ⟨⟩
    exact ⟨rfl, rfl⟩
  · rintro ⟨rfl, rfl⟩
    exact .done

include ht hdir

theorem leads_stay_iff (hname : name = "." ∨ name = "") :
    t.Leads dir (name :: rest) links l ↔ t.Leads dir rest links l := by
  refine ⟨fun h => ?_, .stay hdir hname⟩
  cases h with
  | stay _ _ h => exact h
  | up _ h => simp at hname
  | enter _ hnode _ h =>
      have := ht.isName_last hnode
      exact absurd hname (not_or.mpr ⟨this.ne_here, this.ne_empty⟩)
  | link _ hnode h =>
      have := ht.isName_last hnode
      exact absurd hname (not_or.mpr ⟨this.ne_here, this.ne_empty⟩)

theorem leads_up_iff : t.Leads dir (".." :: rest) links l ↔ t.Leads dir.dropLast rest links l := by
  refine ⟨fun h => ?_, .up hdir⟩
  cases h with
  | stay _ hname h => simp at hname
  | up _ h => exact h
  | enter _ hnode _ h => exact absurd rfl (ht.isName_last hnode).ne_above
  | link _ hnode h => exact absurd rfl (ht.isName_last hnode).ne_above

theorem leads_enter_iff (hnode : t.get? (dir ++ [name]) = some node) (hlink : ∀ target, node ≠ .link target) :
    t.Leads dir (name :: rest) links l ↔ t.Leads (dir ++ [name]) rest links l := by
  refine ⟨fun h => ?_, .enter hdir hnode hlink⟩
  have hname := ht.isName_last hnode
  cases h with
  | stay _ hname' h => exact absurd hname' (not_or.mpr ⟨hname.ne_here, hname.ne_empty⟩)
  | up _ h => exact absurd rfl hname.ne_above
  | enter _ _ _ h => exact h
  | link _ hnode' h =>
      rw [hnode] at hnode'
      exact absurd (Option.some.inj hnode') (hlink _)

theorem leads_link_iff {target : PathText} (hnode : t.get? (dir ++ [name]) = some (.link target)) :
    t.Leads dir (name :: rest) links l ↔
      ∃ more, links = more + 1 ∧ t.Leads (start dir target) (Path.steps target ++ rest) more l := by
  have hname := ht.isName_last hnode
  constructor
  · intro h
    cases h with
    | stay _ hname' h => exact absurd hname' (not_or.mpr ⟨hname.ne_here, hname.ne_empty⟩)
    | up _ h => exact absurd rfl hname.ne_above
    | enter _ hnode' hlink h =>
        rw [hnode] at hnode'
        cases hnode'
        exact absurd rfl (hlink target)
    | link _ hnode' h =>
        rw [hnode] at hnode'
        cases hnode'
        exact ⟨_, rfl, h⟩
  · rintro ⟨more, rfl, h⟩
    exact .link hdir hnode h

end

theorem Leads.get?_of_cons (h : t.Leads dir (name :: rest) links l) : t.get? dir = some .directory := by
  cases h with
  | stay hdir _ _ => exact hdir
  | up hdir _ => exact hdir
  | enter hdir _ _ _ => exact hdir
  | link hdir _ _ => exact hdir

/-- Steps that follow others lead on from where those lead. -/
theorem Leads.append_iff (ht : t.WellNamed) {mid : Location} {used : Nat} {more : List PathText}
    (h : t.Leads dir steps used mid) :
    t.Leads dir (steps ++ more) links l ↔ ∃ further, links = used + further ∧ t.Leads mid more further l := by
  induction h generalizing links with
  | done => simp
  | stay hdir hname _ ih => rw [List.cons_append, leads_stay_iff ht hdir hname, ih]
  | up hdir _ ih => rw [List.cons_append, leads_up_iff ht hdir, ih]
  | enter hdir hnode hlink _ ih => rw [List.cons_append, leads_enter_iff ht hdir hnode hlink, ih]
  | link hdir hnode _ ih =>
      rw [List.cons_append, leads_link_iff ht hdir hnode]
      simp only [← List.append_assoc, ih]
      constructor
      · rintro ⟨_, rfl, further, rfl, h⟩
        exact ⟨further, by omega, h⟩
      · rintro ⟨further, rfl, h⟩
        exact ⟨_, by omega, further, rfl, h⟩

/-- Steps that lead somewhere lead to a location between any two of them. -/
theorem Leads.exists_between {more : List PathText} (h : t.Leads dir (steps ++ more) links l) :
    ∃ used further mid, t.Leads dir steps used mid ∧ t.Leads mid more further l := by
  generalize hall : steps ++ more = all at h
  induction h generalizing steps with
  | done =>
      obtain ⟨rfl, rfl⟩ := List.append_eq_nil_iff.mp hall
      exact ⟨0, 0, _, .done, .done⟩
  | stay hdir hname h ih =>
      rcases List.append_eq_cons_iff.mp hall with ⟨rfl, rfl⟩ | ⟨steps, rfl, rfl⟩
      · exact ⟨0, _, _, .done, .stay hdir hname h⟩
      · obtain ⟨used, further, mid, hused, hfurther⟩ := ih rfl
        exact ⟨used, further, mid, .stay hdir hname hused, hfurther⟩
  | up hdir h ih =>
      rcases List.append_eq_cons_iff.mp hall with ⟨rfl, rfl⟩ | ⟨steps, rfl, rfl⟩
      · exact ⟨0, _, _, .done, .up hdir h⟩
      · obtain ⟨used, further, mid, hused, hfurther⟩ := ih rfl
        exact ⟨used, further, mid, .up hdir hused, hfurther⟩
  | enter hdir hnode hlink h ih =>
      rcases List.append_eq_cons_iff.mp hall with ⟨rfl, rfl⟩ | ⟨steps, rfl, rfl⟩
      · exact ⟨0, _, _, .done, .enter hdir hnode hlink h⟩
      · obtain ⟨used, further, mid, hused, hfurther⟩ := ih rfl
        exact ⟨used, further, mid, .enter hdir hnode hlink hused, hfurther⟩
  | link hdir hnode h ih =>
      rcases List.append_eq_cons_iff.mp hall with ⟨rfl, rfl⟩ | ⟨steps, rfl, rfl⟩
      · exact ⟨0, _, _, .done, .link hdir hnode h⟩
      · obtain ⟨used, further, mid, hused, hfurther⟩ := ih (List.append_assoc _ _ _)
        exact ⟨used + 1, further, mid, .link hdir hnode hused, hfurther⟩

/-! ## Looking along a path -/

/-- The path leads from the working directory to a location, past so many links. -/
def LeadsTo (t : FileTree) (path : PathText) (links : Nat) (l : Location) : Prop :=
  t.Leads (start t.workingDirectory path) (Path.steps path) links l

/-- What the system asks of a path before it follows it. -/
structure Admits (path : PathText) : Prop where
  no_nul : 0 ∉ path.bytes
  short : path.bytes.length ≤ pathLimit
  ne_empty : path ≠ ""

variable {path : PathText}

theorem follow_eq_ok_iff : t.follow .look path = .ok l ↔
    Admits path ∧ t.locate .look linkLimit (start t.workingDirectory path) (Path.steps path) = .ok l := by
  unfold follow
  constructor
  · intro h
    split at h
    · cases h
    · split at h
      · cases h
      · split at h
        · cases h
        · rename_i hnul hlong hempty
          exact ⟨⟨by simpa using hnul, Nat.not_lt.mp hlong, hempty⟩, h⟩
  · rintro ⟨⟨hnul, hshort, hempty⟩, h⟩
    simpa [hnul, Nat.not_lt.mpr hshort, hempty, start] using h

theorem look_eq_ok_iff (ht : t.WellNamed) :
    t.look path = .ok node ↔
      Admits path ∧ ∃ used ≤ linkLimit, ∃ l, t.LeadsTo path used l ∧ t.get? l = some node := by
  have hlook : t.look path = .ok node ↔ ∃ l, t.follow .look path = .ok l ∧ t.get? l = some node := by
    rw [look, Attempt.bind_eq_ok]
    refine exists_congr fun l => and_congr_right fun _ => ?_
    cases t.get? l with
    | none => simp [throw, throwThe, MonadExceptOf.throw]
    | some node' => simp [pure, Except.pure]
  rw [hlook]
  simp only [follow_eq_ok_iff]
  constructor
  · rintro ⟨l, ⟨hadmits, h⟩, hnode⟩
    obtain ⟨used, hused, h⟩ := exists_leads_of_locate h hnode
    exact ⟨hadmits, used, hused, l, h, hnode⟩
  · rintro ⟨hadmits, used, hused, l, h, hnode⟩
    exact ⟨l, ⟨hadmits, h.locate ht hused⟩, hnode⟩

theorem LeadsTo.leads_names (ht : t.WellNamed) (h : t.LeadsTo path links dir) :
    t.Leads (start t.workingDirectory path) (Path.names path) links dir := by
  unfold LeadsTo Path.steps at h
  split at h
  · -- the slash at the end is a step that stays
    obtain ⟨used, further, mid, hused, hfurther⟩ := h.exists_between
    obtain ⟨_, rfl, hfurther'⟩ := (hused.append_iff ht).mp h
    obtain ⟨rfl, rfl⟩ := leads_nil_iff.mp ((leads_stay_iff ht hfurther'.get?_of_cons (.inr rfl)).mp hfurther')
    exact hused
  · exact h

/-- A way behind the path of a directory leads on from it. -/
theorem leadsTo_join_iff (ht : t.WellNamed) {used : Nat} {way : List PathText} (hpath : path ≠ "")
    (h : t.LeadsTo path used dir) (hne : way ≠ []) (hway : ∀ name ∈ way, Path.IsName name) :
    t.LeadsTo (Path.join path (Path.ofNames way)) links l ↔
      ∃ further, links = used + further ∧ t.Leads dir way further l := by
  have hstart : start t.workingDirectory (Path.join path (Path.ofNames way)) = start t.workingDirectory path := by
    simp only [start, Path.isAbsolute_join hpath hway]
  rw [LeadsTo, hstart, Path.steps_join hpath hne hway, (h.leads_names ht).append_iff ht]

theorem contentOf_eq_ok_iff {content : Bytes} : t.contentOf path = .ok content ↔ t.look path = .ok (.file content) := by
  unfold contentOf
  cases t.look path with
  | error e => simp [bind, Except.bind]
  | ok node =>
      cases node with
      | file content' => simp [bind, Except.bind, pure, Except.pure]
      | directory => simp [bind, Except.bind, throw, throwThe, MonadExceptOf.throw]
      | link target => simp [bind, Except.bind, throw, throwThe, MonadExceptOf.throw]

theorem isFile_iff : t.isFile path = true ↔ ∃ content, t.look path = .ok (.file content) := by
  unfold isFile
  split <;> simp_all

theorem isDirectory_iff : t.isDirectory path = true ↔ t.look path = .ok .directory := by
  unfold isDirectory
  split <;> simp_all

end MethodScout.FileTree
