import MethodScout.Proofs.Aggregation

/-!
# Parts of reports

A report is within another one if each of its entries is there too, with all its names. A report can also be what is left
of another one when some names are taken out of all entries; an entry of which nothing is left is not there.
-/

namespace MethodScout

/-! ## Sets and tables -/

namespace NameSet

/-- The names of a set that are not in another one. -/
def diff (s t : NameSet) : NameSet :=
  ⟨s.toList.filter fun x => !decide (x ∈ t), s.sorted.filter _⟩

instance : SDiff NameSet := ⟨diff⟩

@[simp]
theorem mem_sdiff {s t : NameSet} {x : String} : x ∈ s \ t ↔ x ∈ s ∧ ¬x ∈ t := by
  change x ∈ s.toList.filter _ ↔ _
  simp

end NameSet

namespace NameMap

variable {m n : NameMap NameSet} {P Q : String → String → Prop}

/-- Every entry of the table is in the other one, with all its names and perhaps more. -/
def Within (m n : NameMap NameSet) : Prop :=
  ∀ c names, m.get? c = some names → ∃ more, n.get? c = some more ∧ ∀ x ∈ names, x ∈ more

/-- The table has what is left of the other one's entries without some names. -/
def IsRestOf (m n : NameMap NameSet) (without : NameSet) : Prop :=
  ∀ c, m.get? c = ((n.get? c).map (· \ without)).filter fun names => !names.isEmpty

theorem Tabulates.within (hm : m.Tabulates P) (hn : n.Tabulates Q) (h : ∀ c x, P c x → Q c x) : m.Within n := by
  intro c names hc
  obtain ⟨⟨x, hx⟩, hnames⟩ := hm.get?_eq_some_iff.mp hc
  obtain ⟨more, hmore, -⟩ := (hn.mem_iff c x).mpr (h c x ((hnames x).mp hx))
  refine ⟨more, hmore, ?_⟩
  intro y hy
  exact ((hn.get?_eq_some_iff.mp hmore).2 y).mpr (h c y ((hnames y).mp hy))

theorem Tabulates.isRestOf {without : NameSet} (hm : m.Tabulates fun c x => P c x ∧ ¬x ∈ without)
    (hn : n.Tabulates P) : m.IsRestOf n without := by
  intro c
  apply Option.ext
  intro names
  rw [hm.get?_eq_some_iff, Option.filter_eq_some_iff, Option.map_eq_some_iff]
  simp only [Bool.not_eq_true', NameSet.isEmpty_eq_false_iff]
  constructor
  · intro h
    obtain ⟨⟨x, hx⟩, hnames⟩ := h
    obtain ⟨found, hfound, -⟩ := (hn.mem_iff c x).mpr ((hnames x).mp hx).1
    refine ⟨⟨found, hfound, NameSet.ext_mem ?_⟩, x, hx⟩
    intro y
    rw [NameSet.mem_sdiff, (hn.get?_eq_some_iff.mp hfound).2, hnames]
  · intro h
    obtain ⟨⟨found, hfound, rfl⟩, hsome⟩ := h
    refine ⟨hsome, ?_⟩
    intro y
    rw [NameSet.mem_sdiff, (hn.get?_eq_some_iff.mp hfound).2]

theorem nodup_names (m : NameMap NameSet) : m.names.Nodup :=
  List.pairwise_map.mpr (m.sorted.imp name_ne_of_lt)

theorem length_names (m : NameMap NameSet) : m.names.length = m.size := by
  rw [names, List.length_map, size]

theorem mem_names {c : String} : c ∈ m.names ↔ ∃ names, m.get? c = some names := by
  simp [names, ← mem_entries]

theorem Within.size_le (h : m.Within n) : m.size ≤ n.size := by
  have hsubset : m.names ⊆ n.names := by
    intro c hc
    obtain ⟨names, hnames⟩ := mem_names.mp hc
    obtain ⟨more, hmore, -⟩ := h c names hnames
    exact mem_names.mpr ⟨more, hmore⟩
  rw [← length_names, ← length_names]
  exact m.nodup_names.length_le_of_subset hsubset

theorem Within.length_pairs_le (h : m.Within n) : m.pairs.length ≤ n.pairs.length := by
  apply m.nodup_pairs.length_le_of_subset
  intro p hp
  obtain ⟨names, hnames, hx⟩ := mem_pairs.mp hp
  obtain ⟨more, hmore, hsub⟩ := h p.1 names hnames
  exact mem_pairs.mpr ⟨more, hmore, hsub p.2 hx⟩

theorem within_of_merge {u : NameMap NameSet}
    (h : ∀ c, u.get? c = Option.merge (· ∪ ·) (m.get? c) (n.get? c)) : m.Within u := by
  intro c names hc
  rw [h c, hc]
  cases n.get? c with
  | none => exact ⟨names, rfl, fun _ hx => hx⟩
  | some more => exact ⟨names ∪ more, rfl, fun _ hx => NameSet.mem_union.mpr (.inl hx)⟩

end NameMap

/-! ## Reports -/

namespace Report

variable {r s u : Report} {P Q : Category → String → String → Prop}

/-- Every entry of the report is in the other one, with all its names. -/
structure Within (r s : Report) : Prop where
  classes : r.classes.Within s.classes
  categories : ∀ k, (r.categories.get k).Within (s.categories.get k)

/-- The report is what is left of the other one without some names. -/
structure IsRestOf (r s : Report) (without : NameSet) : Prop where
  classes : r.classes.IsRestOf s.classes without
  categories : ∀ k, (r.categories.get k).IsRestOf (s.categories.get k) without
  category?_eq_none_iff : ∀ k, r.category? k = none ↔
    ∀ c names, (s.categories.get k).get? c = some names → ∀ x ∈ names, x ∈ without

theorem IsUnion.within_left (h : u.IsUnion r s) : r.Within u :=
  ⟨NameMap.within_of_merge h.classes, fun k => NameMap.within_of_merge (h.categories k)⟩

theorem Within.methodCount_le (h : r.Within s) : r.methodCount ≤ s.methodCount := by
  rw [methodCount_eq_length_pairs, methodCount_eq_length_pairs]
  exact h.classes.length_pairs_le

theorem IsOf.within (hr : r.IsOf P) (hs : s.IsOf Q) (h : ∀ k c x, P k c x → Q k c x) : r.Within s := by
  refine ⟨hr.classes.within hs.classes ?_, fun k => (hr.categories k).within (hs.categories k) (h k)⟩
  intro c x hx
  obtain ⟨k, hk⟩ := hx
  exact ⟨k, h k c x hk⟩

theorem IsOf.isRestOf {without : NameSet} (hr : r.IsOf fun k c x => P k c x ∧ ¬x ∈ without) (hs : s.IsOf P) :
    r.IsRestOf s without := by
  refine ⟨?_, fun k => (hr.categories k).isRestOf (hs.categories k), ?_⟩
  · exact (hr.classes.congr fun c x => exists_and_right).isRestOf hs.classes
  · intro k
    rw [hr.category?_eq_none_iff]
    constructor
    · intro h c names hc x hx
      by_contra hout
      exact h c x ⟨((hs.categories k).mem_iff c x).mp ⟨names, hc, hx⟩, hout⟩
    · intro h c x hx
      obtain ⟨names, hc, hmem⟩ := ((hs.categories k).mem_iff c x).mpr hx.1
      exact hx.2 (h c names hc x hmem)

end Report

end MethodScout
