import Mathlib.Data.List.Dedup
import MethodScout.Proofs.Reports
import MethodScout.Report.Rendering
import MethodScout.Scan.Basic

/-!
# Collecting classifications in any order

Sorted sets and maps are equal when they have the same members, so a report is determined by the relation that its
tables tabulate. The tables of a report agree with each other after every insertion, and a report depends neither on the
order in which classifications are inserted nor on how often one is.
-/

namespace MethodScout

/-! ## Equal sets and maps -/

theorem eq_of_sorted_of_mem_iff {α : Type} {f : α → String} {as bs : List α} (has : as.Pairwise fun a b => f a < f b)
    (hbs : bs.Pairwise fun a b => f a < f b) (h : ∀ a, a ∈ as ↔ a ∈ bs) : as = bs := by
  have hne {a b : α} (hlt : f a < f b) : a ≠ b := fun heq => name_ne_of_lt hlt (congrArg f heq)
  have hperm : as.Perm bs := (List.perm_ext_iff_of_nodup (has.imp hne) (hbs.imp hne)).mpr h
  exact hperm.eq_of_pairwise (fun _ _ _ _ hab hba => absurd hba (String.lt_asymm hab)) has hbs

namespace NameSet

theorem nodup_toList (s : NameSet) : s.toList.Nodup := s.sorted.imp name_ne_of_lt

theorem ext_mem {s t : NameSet} (h : ∀ x, x ∈ s ↔ x ∈ t) : s = t := by
  have hlist : s.toList = t.toList := eq_of_sorted_of_mem_iff (f := id) s.sorted t.sorted h
  cases s
  cases t
  cases hlist
  rfl

end NameSet

namespace NameMap

variable {α : Type}

theorem mem_entries {m : NameMap α} {name : String} {value : α} :
    (name, value) ∈ m.entries ↔ m.get? name = some value := by
  obtain ⟨entries, sorted⟩ := m
  change _ ↔ entries.lookup name = some value
  induction entries with
  | nil => simp
  | cons entry rest ih =>
      obtain ⟨first, found⟩ := entry
      obtain ⟨hfirst, hrest⟩ := List.pairwise_cons.mp sorted
      rw [lookup_cons_eq_ite, List.mem_cons, ih hrest]
      by_cases hname : name = first
      · -- the names after the first one are greater than it
        subst hname
        have hnone : rest.lookup name = none := lookup_eq_none_of_lt hfirst
        simp [hnone, eq_comm]
      · simp [hname]

theorem ext_get? {m n : NameMap α} (h : ∀ name, m.get? name = n.get? name) : m = n := by
  have hlist : m.entries = n.entries := by
    refine eq_of_sorted_of_mem_iff m.sorted n.sorted fun e => ?_
    rw [← Prod.eta e, mem_entries, mem_entries, h]
  cases m
  cases n
  cases hlist
  rfl

/-! ## Tables are determined by their relations -/

variable {m n u : NameMap NameSet} {P Q : String → String → Prop}

theorem Tabulates.get?_eq_some_iff (h : m.Tabulates P) {c : String} {names : NameSet} :
    m.get? c = some names ↔ (∃ x, x ∈ names) ∧ ∀ x, x ∈ names ↔ P c x := by
  refine ⟨fun hc => ⟨h.nonempty c names hc, fun x => ?_⟩, ?_⟩
  · rw [← h.mem_iff, hc]
    simp
  · rintro ⟨⟨x, hx⟩, hnames⟩
    obtain ⟨found, hfound, -⟩ := (h.mem_iff c x).mpr ((hnames x).mp hx)
    have heq : found = names := NameSet.ext_mem fun y => by
      rw [hnames, ← h.mem_iff, hfound]
      simp
    rw [hfound, heq]

theorem Tabulates.isSome_get?_iff (h : m.Tabulates P) {c : String} : (m.get? c).isSome = true ↔ ∃ x, P c x := by
  rw [← Option.ne_none_iff_isSome, ne_eq, h.get?_eq_none_iff]
  simp

theorem Tabulates.unique (hm : m.Tabulates P) (hn : n.Tabulates P) : m = n :=
  ext_get? fun c => Option.ext fun names => by
    rw [hm.get?_eq_some_iff, hn.get?_eq_some_iff]

/-- The table of the union of two relations is the union of their tables. -/
theorem Tabulates.get?_or (hm : m.Tabulates P) (hn : n.Tabulates Q) (hu : u.Tabulates fun c x => P c x ∨ Q c x)
    (c : String) : u.get? c = Option.merge (· ∪ ·) (m.get? c) (n.get? c) := by
  cases hmc : m.get? c with
  | none =>
      have hP := hm.get?_eq_none_iff.mp hmc
      rw [Option.merge_none_left]
      refine Option.ext fun names => ?_
      rw [hu.get?_eq_some_iff, hn.get?_eq_some_iff]
      simp [hP]
  | some a =>
      obtain ⟨⟨x, hx⟩, ha⟩ := hm.get?_eq_some_iff.mp hmc
      cases hnc : n.get? c with
      | none =>
          have hQ := hn.get?_eq_none_iff.mp hnc
          rw [Option.merge_none_right, hu.get?_eq_some_iff]
          exact ⟨⟨x, hx⟩, fun y => by simp [ha, hQ]⟩
      | some b =>
          obtain ⟨-, hb⟩ := hn.get?_eq_some_iff.mp hnc
          rw [Option.merge_some_some, hu.get?_eq_some_iff]
          exact ⟨⟨x, NameSet.mem_union.mpr (.inl hx)⟩, fun y => by rw [NameSet.mem_union, ha, hb]⟩

/-! ## Counting -/

/-- The names with the members of their sets, one by one. -/
def pairs (m : NameMap NameSet) : List (String × String) :=
  m.entries.flatMap fun e => e.2.toList.map (e.1, ·)

theorem mem_pairs {p : String × String} :
    p ∈ m.pairs ↔ ∃ names, m.get? p.1 = some names ∧ p.2 ∈ names := by
  simp only [pairs, List.mem_flatMap, List.mem_map]
  refine ⟨?_, ?_⟩
  · rintro ⟨⟨c, names⟩, he, x, hx, rfl⟩
    exact ⟨names, mem_entries.mp he, hx⟩
  · rintro ⟨names, hnames, hx⟩
    exact ⟨(p.1, names), mem_entries.mpr hnames, p.2, hx, rfl⟩

theorem nodup_pairs (m : NameMap NameSet) : m.pairs.Nodup := by
  refine List.nodup_flatMap.mpr ⟨fun e _ => e.2.nodup_toList.map fun _ _ h => (Prod.mk.inj h).2, ?_⟩
  refine m.sorted.imp fun {a b} hlt p hpa hpb => ?_
  obtain ⟨_, _, rfl⟩ := List.mem_map.mp hpa
  obtain ⟨_, _, hb⟩ := List.mem_map.mp hpb
  exact name_ne_of_lt hlt (Prod.mk.inj hb).1.symm

theorem length_pairs (m : NameMap NameSet) :
    m.pairs.length = m.entries.foldl (fun total e => total + e.2.size) 0 := by
  have hcount (entries : List (String × NameSet)) (start : Nat) :
      entries.foldl (fun total e => total + e.2.size) start =
        start + (entries.flatMap fun e => e.2.toList.map (e.1, ·)).length := by
    induction entries generalizing start with
    | nil => rfl
    | cons e entries ih =>
        rw [List.foldl_cons, ih, List.flatMap_cons, List.length_append, List.length_map, Nat.add_assoc]
        rfl
  rw [hcount, Nat.zero_add]
  rfl

end NameMap

namespace Report

/-! ## The tables agree -/

/-- The methods that a class has in any of the categories. -/
def methodsOf (r : Report) (c : String) : NameSet :=
  Category.all.foldl (fun names k => names ∪ ((r.categories.get k).get? c).getD ∅) ∅

/-- The classes with their methods in all categories; a method is there once for each of its categories. -/
def pairs (r : Report) : List (String × String) :=
  Category.all.flatMap fun k => (r.categories.get k).pairs

/-- The table of classes has what the tables of the categories have together, and nothing in any table is empty. -/
structure Consistent (r : Report) : Prop where
  key_iff : ∀ c, (r.classes.get? c).isSome = true ↔ ∃ k, ((r.categories.get k).get? c).isSome = true
  union : ∀ c names, r.classes.get? c = some names → names = r.methodsOf c
  classes_nonempty : ∀ c names, r.classes.get? c = some names → names.isEmpty = false
  categories_nonempty : ∀ k c names, (r.categories.get k).get? c = some names → names.isEmpty = false
  category_nonempty : ∀ k m, r.category? k = some m → m.isEmpty = false
  methodCount : r.methodCount = r.pairs.dedup.length
  isEmpty_iff : r.isEmpty = true ↔ r.pairs = []

variable {r s u : Report} {P Q : Category → String → String → Prop}

theorem methodCount_eq_length_pairs (r : Report) : r.methodCount = r.classes.pairs.length :=
  r.classes.length_pairs.symm

theorem mem_methodsOf {c x : String} :
    x ∈ r.methodsOf c ↔ ∃ k names, (r.categories.get k).get? c = some names ∧ x ∈ names := by
  have hfold (ks : List Category) (start : NameSet) :
      x ∈ ks.foldl (fun names k => names ∪ ((r.categories.get k).get? c).getD ∅) start ↔
        x ∈ start ∨ ∃ k ∈ ks, x ∈ ((r.categories.get k).get? c).getD ∅ := by
    induction ks generalizing start with
    | nil => simp
    | cons k ks ih => simp [ih, or_assoc]
  have hgetD (k : Category) : x ∈ ((r.categories.get k).get? c).getD ∅ ↔
      ∃ names, (r.categories.get k).get? c = some names ∧ x ∈ names := by
    cases (r.categories.get k).get? c <;> simp
  simp [methodsOf, hfold, hgetD, Category.mem_all]

theorem IsOf.mem_methodsOf (h : r.IsOf P) {c x : String} : x ∈ r.methodsOf c ↔ ∃ k, P k c x := by
  simp only [Report.mem_methodsOf, (h.categories _).mem_iff]

theorem IsOf.mem_pairs (h : r.IsOf P) {p : String × String} : p ∈ r.pairs ↔ ∃ k, P k p.1 p.2 := by
  simp [pairs, NameMap.mem_pairs, (h.categories _).mem_iff, Category.mem_all]

theorem IsOf.mem_pairs_classes (h : r.IsOf P) {p : String × String} : p ∈ r.pairs ↔ p ∈ r.classes.pairs := by
  rw [h.mem_pairs, NameMap.mem_pairs, h.classes.mem_iff]

theorem IsOf.consistent (h : r.IsOf P) : r.Consistent where
  key_iff c := by
    simp only [h.classes.isSome_get?_iff, (h.categories _).isSome_get?_iff]
    exact exists_comm
  union c names hc := NameSet.ext_mem fun x => by
    rw [(h.classes.get?_eq_some_iff.mp hc).2, h.mem_methodsOf]
  classes_nonempty c names hc := NameSet.isEmpty_eq_false_iff.mpr (h.classes.nonempty c names hc)
  categories_nonempty k c names hc := NameSet.isEmpty_eq_false_iff.mpr ((h.categories k).nonempty c names hc)
  category_nonempty k m hm := by
    -- a table without classes has nothing related in it, and so would be missing
    have htable := h.categories k
    rw [Report.categories, ByCategory.get_ofFn, hm, Option.getD_some] at htable
    apply Bool.eq_false_iff.mpr
    intro hempty
    have hnone := (h.category?_eq_none_iff k).mpr (htable.isEmpty_iff.mp hempty)
    rw [hm] at hnone
    cases hnone
  methodCount := by
    have hperm : r.pairs.dedup.Perm r.classes.pairs := by
      refine (List.perm_ext_iff_of_nodup r.pairs.nodup_dedup r.classes.nodup_pairs).mpr fun p => ?_
      rw [List.mem_dedup, h.mem_pairs_classes]
    rw [hperm.length_eq, methodCount_eq_length_pairs]
  isEmpty_iff := by
    have hpairs : r.pairs = [] ↔ ∀ c x, ¬∃ k, P k c x := by
      simp only [List.eq_nil_iff_forall_not_mem, Prod.forall, h.mem_pairs]
    rw [hpairs]
    exact h.classes.isEmpty_iff

/-- After any insertions the tables of a report agree, and a category is in it just when some classification had methods
for it. -/
theorem consistent_after_insertions (cs : List Classification) :
    (cs.foldl insert empty).Consistent ∧
      ∀ k, (cs.foldl insert empty).category? k = none ↔ ∀ c ∈ cs, (c.methods.get k).isEmpty = true := by
  have h := isOf_ofClassifications cs
  refine ⟨h.consistent, fun k => (h.category?_eq_none_iff k).trans ?_⟩
  simp only [NameSet.isEmpty_iff]
  refine ⟨fun hnone c hc x hx => hnone c.className x ⟨c, hc, rfl, hx⟩, ?_⟩
  rintro hempty _ x ⟨c, hc, -, hx⟩
  exact hempty c hc x hx

/-! ## Order and repetition -/

theorem IsOf.category?_unique (hr : r.IsOf P) (hs : s.IsOf Q) {k : Category} (h : ∀ c x, P k c x ↔ Q k c x) :
    r.category? k = s.category? k := by
  have hnone : r.category? k = none ↔ s.category? k = none := by
    simp only [hr.category?_eq_none_iff, hs.category?_eq_none_iff, h]
  have htable := ((hr.categories k).congr h).unique (hs.categories k)
  simp only [Report.categories, ByCategory.get_ofFn] at htable
  cases hrk : r.category? k with
  | none => exact (hnone.mp hrk).symm
  | some m =>
      cases hsk : s.category? k with
      | none => simp [hrk, hsk] at hnone
      | some n => simpa [hrk, hsk] using htable

theorem IsOf.unique (hr : r.IsOf P) (hs : s.IsOf P) : r = s := by
  have hclasses : r.classes = s.classes := hr.classes.unique hs.classes
  have htables : r.tables = s.tables :=
    ByCategory.ext_get fun k => hr.category?_unique hs fun _ _ => Iff.rfl
  cases r
  cases s
  cases hclasses
  cases htables
  rfl

/-- The tables of a report are the unions of those of two others. -/
structure IsUnion (u r s : Report) : Prop where
  classes : ∀ c, u.classes.get? c = Option.merge (· ∪ ·) (r.classes.get? c) (s.classes.get? c)
  categories : ∀ k c, (u.categories.get k).get? c =
    Option.merge (· ∪ ·) ((r.categories.get k).get? c) ((s.categories.get k).get? c)
  category?_eq_none_iff : ∀ k, u.category? k = none ↔ r.category? k = none ∧ s.category? k = none

theorem IsOf.isUnion (hr : r.IsOf P) (hs : s.IsOf Q) (hu : u.IsOf fun k c x => P k c x ∨ Q k c x) :
    u.IsUnion r s where
  classes := hr.classes.get?_or hs.classes (hu.classes.congr fun _ _ => exists_or)
  categories k := (hr.categories k).get?_or (hs.categories k) (hu.categories k)
  category?_eq_none_iff k := by
    simp only [hu.category?_eq_none_iff, hr.category?_eq_none_iff, hs.category?_eq_none_iff, not_or, forall_and]

/-- Two reports are written in the same way in every form. -/
structure RendersAlike (r s : Report) : Prop where
  includeList : r.includeList = s.includeList
  listing : r.listing = s.listing
  propertyFlag : ∀ name, r.propertyFlag name = s.propertyFlag name
  shellAssignment : ∀ name, r.shellAssignment name = s.shellAssignment name
  text : ∀ propertyName variableName, r.text propertyName variableName = s.text propertyName variableName
  json : r.json = s.json

theorem RendersAlike.of_eq (h : r = s) : r.RendersAlike s := by
  subst h
  exact ⟨rfl, rfl, fun _ => rfl, fun _ => rfl, fun _ _ => rfl, rfl⟩

theorem ofClassifications_congr {xs ys : List Classification} (h : ∀ c, c ∈ ys ↔ c ∈ xs) :
    ofClassifications ys = ofClassifications xs :=
  (isOf_ofClassifications ys).unique ((isOf_ofClassifications xs).congr fun k c x => by simp only [h])

theorem ofClassifications_append (xs ys : List Classification) :
    (ofClassifications (xs ++ ys)).IsUnion (ofClassifications xs) (ofClassifications ys) := by
  refine (isOf_ofClassifications xs).isUnion (isOf_ofClassifications ys) ?_
  exact (isOf_ofClassifications (xs ++ ys)).congr fun k c x => by simp only [List.mem_append, or_and_right, exists_or]

end Report

theorem Scan.outcome_perm (roots : Nat) {is js : List Inspection} (h : js.Perm is) :
    outcome roots js = outcome roots is := by
  have hclassified : (classified js).Perm (classified is) := h.filterMap _
  have hreport := Report.ofClassifications_congr fun c => hclassified.mem_iff (a := c)
  simp only [outcome, hreport, h.length_eq, hclassified.length_eq]

namespace Report

/-- A report depends only on which classifications there are, not on their order or on how often one is there, and what
two lists of classifications give together is the union of what they give apart. So the outcome of a scan does not
depend on the order in which the inspections of its resources come in. -/
theorem ofClassifications_order_grouping_repetition (xs ys : List Classification) :
    (ys.Perm xs ∨ (∀ c, c ∈ ys ↔ c ∈ xs) →
      ofClassifications ys = ofClassifications xs ∧ (ofClassifications ys).RendersAlike (ofClassifications xs)) ∧
    (ofClassifications (xs ++ ys)).IsUnion (ofClassifications xs) (ofClassifications ys) ∧
    ∀ (roots : Nat) (is js : List Scan.Inspection), js.Perm is → Scan.outcome roots js = Scan.outcome roots is := by
  refine ⟨fun h => ?_, ofClassifications_append xs ys, fun roots is js hperm => Scan.outcome_perm roots hperm⟩
  have hmem : ∀ c, c ∈ ys ↔ c ∈ xs := by
    rcases h with hperm | hmem
    · exact fun c => hperm.mem_iff
    · exact hmem
  have heq := ofClassifications_congr hmem
  exact ⟨heq, .of_eq heq⟩

/-- A class with a synchronized method. -/
def lockedJob : Classification :=
  ⟨"Job", .ofFn fun k => if k = .synchronized then some (.ofList ["run"]) else none⟩

/-- A class of the same name, with the same method and another one in two categories. -/
def busyJob : Classification :=
  ⟨"Job", .ofFn fun k => if k = .synchronized ∨ k = .highCallCount then some (.ofList ["run", "stop"]) else some ∅⟩

theorem ofClassifications_same_class_twice :
    (∀ c, c ∈ [busyJob, lockedJob, busyJob] ↔ c ∈ [lockedJob, busyJob]) ∧
      ofClassifications [busyJob, lockedJob, busyJob] = ofClassifications [lockedJob, busyJob] ∧
      (ofClassifications [busyJob, lockedJob, busyJob]).RendersAlike (ofClassifications [lockedJob, busyJob]) ∧
      Scan.outcome 1 [⟨"b/Job.class", .ok busyJob⟩, ⟨"Job.class", .ok lockedJob⟩] =
        Scan.outcome 1 [⟨"Job.class", .ok lockedJob⟩, ⟨"b/Job.class", .ok busyJob⟩] := by
  have hmem : ∀ c, c ∈ [busyJob, lockedJob, busyJob] ↔ c ∈ [lockedJob, busyJob] := by
    intro c
    simp only [List.mem_cons, List.not_mem_nil, or_false]
    tauto
  obtain ⟨hsame, -, horder⟩ :=
    ofClassifications_order_grouping_repetition [lockedJob, busyJob] [busyJob, lockedJob, busyJob]
  obtain ⟨heq, halike⟩ := hsame (.inr hmem)
  exact ⟨hmem, heq, halike, horder 1 _ _ (.swap _ _ _)⟩

end Report

end MethodScout
