import MethodScout.Report.Basic

/-!
# What reports hold

A report is built class by class. A table of names tabulates a relation when it has an entry for just the names that are
related to something, and the entry is the set of all that they are related to. The tables of a report tabulate which
methods the classes have in each category and over all of them.
-/

namespace MethodScout

namespace NameSet

theorem isEmpty_iff {s : NameSet} : s.isEmpty = true ↔ ∀ x, ¬x ∈ s := by
  rw [isEmpty, List.isEmpty_iff, List.eq_nil_iff_forall_not_mem]
  exact Iff.rfl

theorem isEmpty_eq_false_iff {s : NameSet} : s.isEmpty = false ↔ ∃ x, x ∈ s := by
  rw [← Bool.not_eq_true, isEmpty_iff]
  simp

end NameSet

/-! ## Looking up names -/

namespace NameMap

variable {α : Type}

theorem lookup_cons_eq_ite (first x : String) (value : α) (rest : List (String × α)) :
    ((first, value) :: rest).lookup x = if x = first then some value else rest.lookup x := by
  rw [List.lookup_cons]
  split
  · rename_i heq
    rw [if_pos (beq_iff_eq.mp heq)]
  · rename_i hne
    rw [if_neg (beq_eq_false_iff_ne.mp hne)]

theorem lookup_eq_none_of_lt {name : String} {l : List (String × α)} (h : ∀ e ∈ l, name < e.1) :
    l.lookup name = none := by
  rw [List.lookup_eq_none_iff]
  intro e he
  have hne : name ≠ e.1 := fun heq => String.lt_irrefl e.1 (heq ▸ h e he)
  simpa using hne

theorem lookup_alterIn {name x : String} {f : Option α → α} {l : List (String × α)}
    (h : l.Pairwise fun a b => a.1 < b.1) :
    (alterIn name f l).lookup x = if x = name then some (f (l.lookup name)) else l.lookup x := by
  induction l with
  | nil => simp [alterIn, lookup_cons_eq_ite]
  | cons entry rest ih =>
      obtain ⟨first, value⟩ := entry
      obtain ⟨hfirst, hrest⟩ := List.pairwise_cons.mp h
      unfold alterIn
      split
      · rename_i hlt
        -- every name in the list is greater, so the new name was not there
        have hnone : ((first, value) :: rest).lookup name = none := by
          refine lookup_eq_none_of_lt fun e he => ?_
          rcases List.mem_cons.mp he with rfl | he
          · exact hlt
          · exact String.lt_trans hlt (hfirst e he)
        rw [hnone, lookup_cons_eq_ite]
      · split
        · rename_i heq
          subst heq
          by_cases hx : x = name
          · simp [hx]
          · simp [lookup_cons_eq_ite, hx]
        · rename_i hne
          rw [lookup_cons_eq_ite, lookup_cons_eq_ite, lookup_cons_eq_ite, ih hrest, if_neg hne]
          by_cases hx : x = name
          · subst hx
            rw [if_neg hne]
            simp
          · simp [hx]

theorem get?_alter (m : NameMap α) (name x : String) (f : Option α → α) :
    (m.alter name f).get? x = if x = name then some (f (m.get? name)) else m.get? x :=
  lookup_alterIn m.sorted

theorem get?_addNames (m : NameMap NameSet) (name x : String) (names : NameSet) :
    (m.addNames name names).get? x =
      if x = name then some ((m.get? name).getD ∅ ∪ names) else m.get? x :=
  get?_alter m name x _

theorem isEmpty_iff {m : NameMap α} : m.isEmpty = true ↔ ∀ name, m.get? name = none := by
  obtain ⟨entries, sorted⟩ := m
  cases entries with
  | nil => simp [isEmpty, get?]
  | cons entry rest =>
      refine ⟨fun h => absurd h (by simp [isEmpty]), fun h => ?_⟩
      have hentry := h entry.1
      simp [get?] at hentry

/-! ## Tables of relations -/

/-- The table has an entry for a name just when something is related to it, and then all that is. -/
structure Tabulates (m : NameMap NameSet) (P : String → String → Prop) : Prop where
  mem_iff : ∀ c x, (∃ names, m.get? c = some names ∧ x ∈ names) ↔ P c x
  nonempty : ∀ c names, m.get? c = some names → ∃ x, x ∈ names

variable {m : NameMap NameSet} {P Q : String → String → Prop}

theorem Tabulates.congr (h : m.Tabulates P) (hPQ : ∀ c x, P c x ↔ Q c x) : m.Tabulates Q :=
  ⟨fun c x => (h.mem_iff c x).trans (hPQ c x), h.nonempty⟩

theorem tabulates_empty : (empty : NameMap NameSet).Tabulates fun _ _ => False := by
  refine ⟨fun c x => ?_, fun c names h => ?_⟩
  · simp [get?, empty]
  · cases h

theorem Tabulates.addNames (h : m.Tabulates P) (name : String) {names : NameSet} (hnames : ∃ x, x ∈ names) :
    (m.addNames name names).Tabulates fun c x => P c x ∨ name = c ∧ x ∈ names := by
  refine ⟨fun c x => ?_, fun c found hc => ?_⟩
  · rw [← h.mem_iff, get?_addNames]
    by_cases hc : c = name
    · subst hc
      cases m.get? c with
      | none => simp
      | some old => simp
    · simp [hc, Ne.symm hc]
  · rw [get?_addNames] at hc
    split at hc
    · cases hc
      obtain ⟨x, hx⟩ := hnames
      exact ⟨x, NameSet.mem_union.mpr (.inr hx)⟩
    · exact h.nonempty c found hc

theorem Tabulates.get?_eq_none_iff (h : m.Tabulates P) {c : String} : m.get? c = none ↔ ∀ x, ¬P c x := by
  refine ⟨fun hc x hx => ?_, fun hnone => ?_⟩
  · obtain ⟨names, hnames, -⟩ := (h.mem_iff c x).mpr hx
    rw [hc] at hnames
    cases hnames
  · cases hc : m.get? c with
    | none => rfl
    | some names =>
        obtain ⟨x, hx⟩ := h.nonempty c names hc
        exact absurd ((h.mem_iff c x).mp ⟨names, hc, hx⟩) (hnone x)

theorem Tabulates.isEmpty_iff (h : m.Tabulates P) : m.isEmpty = true ↔ ∀ c x, ¬P c x := by
  simp only [NameMap.isEmpty_iff, h.get?_eq_none_iff]

end NameMap

/-! ## Collecting classifications -/

namespace Classification

variable {c : Classification} {x : String}

/-- The names in the entries of a category are its methods. -/
theorem exists_entry_iff {k : Category} :
    (∃ e ∈ c.categories.entries, e.1 = k ∧ x ∈ e.2) ↔ x ∈ c.methods.get k := by
  simp only [methods, ByCategory.get_ofFn, Prod.exists, ByCategory.mem_entries]
  constructor
  · rintro ⟨_, names, hnames, rfl, hx⟩
    rwa [hnames, Option.getD_some]
  · intro hx
    cases hnames : c.categories.get k with
    | none => simp [hnames] at hx
    | some names => exact ⟨k, names, hnames, rfl, by simpa [hnames] using hx⟩

theorem mem_allMethods : x ∈ c.allMethods ↔ ∃ k, x ∈ c.methods.get k := by
  have hunion (es : List (Category × NameSet)) (s : NameSet) :
      x ∈ es.foldl (fun names e => names ∪ e.2) s ↔ x ∈ s ∨ ∃ e ∈ es, x ∈ e.2 := by
    induction es generalizing s with
    | nil => simp
    | cons e es ih => simp [ih, or_assoc]
  simp only [allMethods, hunion, NameSet.not_mem_emptyCollection, false_or, ← exists_entry_iff]
  constructor
  · rintro ⟨e, he, hx⟩
    exact ⟨e.1, e, he, rfl, hx⟩
  · rintro ⟨_, e, he, -, hx⟩
    exact ⟨e, he, hx⟩

end Classification

/-- The tables tabulate a relation for each category. A category is missing just when nothing is related in it. -/
structure ByCategory.Tabulates (t : ByCategory (Option (NameMap NameSet))) (P : Category → String → String → Prop) :
    Prop where
  tabulates : ∀ k, ((t.get k).getD .empty).Tabulates (P k)
  get_eq_none_iff : ∀ k, t.get k = none ↔ ∀ c x, ¬P k c x

namespace ByCategory.Tabulates

variable {t : ByCategory (Option (NameMap NameSet))} {P Q : Category → String → String → Prop} {name : String}

theorem congr (h : t.Tabulates P) (hPQ : ∀ k c x, P k c x ↔ Q k c x) : t.Tabulates Q :=
  ⟨fun k => (h.tabulates k).congr (hPQ k), fun k => by simp only [h.get_eq_none_iff, hPQ]⟩

theorem addEntry (h : t.Tabulates P) (e : Category × NameSet) :
    (Report.addEntry name t e).Tabulates fun k c x => P k c x ∨ e.1 = k ∧ name = c ∧ x ∈ e.2 := by
  unfold Report.addEntry
  split
  · rename_i hempty
    have hnone := NameSet.isEmpty_iff.mp hempty
    exact h.congr fun k c x => by simp [hnone]
  · rename_i hsome
    obtain ⟨x, hx⟩ := NameSet.isEmpty_eq_false_iff.mp (Bool.eq_false_iff.mpr hsome)
    refine ⟨fun k => ?_, fun k => ?_⟩
    · by_cases hk : k = e.1
      · subst hk
        simpa using (h.tabulates e.1).addNames name ⟨x, hx⟩
      · simpa [hk, Ne.symm hk] using h.tabulates k
    · by_cases hk : k = e.1
      · subst hk
        refine iff_of_false (by simp) fun hnone => ?_
        exact hnone name x (.inr ⟨rfl, rfl, hx⟩)
      · simpa [hk, Ne.symm hk] using h.get_eq_none_iff k

theorem foldl_addEntry (h : t.Tabulates P) (es : List (Category × NameSet)) :
    (es.foldl (Report.addEntry name) t).Tabulates fun k c x =>
      P k c x ∨ ∃ e ∈ es, e.1 = k ∧ name = c ∧ x ∈ e.2 := by
  induction es generalizing t P with
  | nil => exact h.congr fun _ _ _ => by simp
  | cons e es ih => exact (ih (h.addEntry e)).congr fun _ _ _ => by simp [or_assoc]

end ByCategory.Tabulates

namespace Report

/-- The tables of the report tabulate a relation of methods to classes for each category, and the union of them all. -/
structure IsOf (r : Report) (P : Category → String → String → Prop) : Prop where
  tables : r.tables.Tabulates P
  classes : r.classes.Tabulates fun c x => ∃ k, P k c x

variable {r : Report} {P Q : Category → String → String → Prop}

theorem IsOf.categories (h : r.IsOf P) (k : Category) : (r.categories.get k).Tabulates (P k) := by
  rw [Report.categories, ByCategory.get_ofFn]
  exact h.tables.tabulates k

theorem IsOf.category?_eq_none_iff (h : r.IsOf P) (k : Category) : r.category? k = none ↔ ∀ c x, ¬P k c x :=
  h.tables.get_eq_none_iff k

theorem IsOf.congr (h : r.IsOf P) (hPQ : ∀ k c x, P k c x ↔ Q k c x) : r.IsOf Q :=
  ⟨h.tables.congr hPQ, h.classes.congr fun c x => exists_congr fun k => hPQ k c x⟩

theorem isOf_empty : empty.IsOf fun _ _ _ => False := by
  refine ⟨⟨fun k => ?_, fun k => ?_⟩, NameMap.tabulates_empty.congr fun _ _ => by simp⟩
  · simpa [empty] using NameMap.tabulates_empty
  · simp [empty]

theorem IsOf.insert (h : r.IsOf P) (c : Classification) :
    (r.insert c).IsOf fun k name x => P k name x ∨ c.className = name ∧ x ∈ c.methods.get k := by
  unfold Report.insert
  split
  · rename_i hempty
    have hnone (k : Category) (x : String) : ¬x ∈ c.methods.get k := fun hx =>
      NameSet.isEmpty_iff.mp hempty x (Classification.mem_allMethods.mpr ⟨k, hx⟩)
    exact h.congr fun k name x => by simp [hnone]
  · rename_i hall
    have hall := NameSet.isEmpty_eq_false_iff.mp (Bool.eq_false_iff.mpr hall)
    refine ⟨(h.tables.foldl_addEntry _).congr fun k name x => ?_,
      (h.classes.addNames c.className hall).congr fun name x => ?_⟩
    · rw [← Classification.exists_entry_iff]
      simp only [and_left_comm, exists_and_left]
    · simp [Classification.mem_allMethods, exists_or]

theorem IsOf.foldl_insert (h : r.IsOf P) (cs : List Classification) :
    (cs.foldl Report.insert r).IsOf fun k name x =>
      P k name x ∨ ∃ c ∈ cs, c.className = name ∧ x ∈ c.methods.get k := by
  induction cs generalizing r P with
  | nil => exact h.congr fun _ _ _ => by simp
  | cons c cs ih => exact (ih (h.insert c)).congr fun _ _ _ => by simp [or_assoc]

theorem isOf_ofClassifications (cs : List Classification) :
    (ofClassifications cs).IsOf fun k name x => ∃ c ∈ cs, c.className = name ∧ x ∈ c.methods.get k :=
  (isOf_empty.foldl_insert cs).congr fun _ _ _ => by simp

end Report

end MethodScout
