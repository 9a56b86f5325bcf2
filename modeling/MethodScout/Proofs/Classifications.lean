import MethodScout.Proofs.Aggregation
import MethodScout.Proofs.Rules

/-!
# Which methods a class has in a category

A category has the names of all methods that it admits, but for those that are left out. So only the set of methods
counts, not their order or how often one is there, and methods of one name count as one.
-/

namespace MethodScout

theorem NameSet.exists_mem_iff {s : NameSet} : (∃ x, x ∈ s) ↔ s ≠ ∅ := by
  constructor
  · rintro ⟨x, hx⟩ rfl
    exact not_mem_emptyCollection hx
  · intro h
    by_contra hnone
    exact h (ext_mem fun x => by simp [not_exists.mp hnone x])

namespace ByCategory.Collects

variable {table table' : ByCategory (Option NameSet)} {P : Category → String → Prop}

/-- No category is missing. -/
theorem keys_eq (h : table.Collects P) : table.entries.map Prod.fst = Category.all := by
  have hall (ks : List Category) : (ks.filterMap fun k => (table.get k).map (k, ·)).map Prod.fst = ks := by
    induction ks with
    | nil => rfl
    | cons k ks ih =>
        obtain ⟨names, hnames, -⟩ := h k
        simp [hnames, ih]
  exact hall Category.all

theorem unique (h : table.Collects P) (h' : table'.Collects P) : table = table' := by
  refine ByCategory.ext_get fun k => ?_
  obtain ⟨names, hnames, hmem⟩ := h k
  obtain ⟨names', hnames', hmem'⟩ := h' k
  have heq : names = names' := NameSet.ext_mem fun x => (hmem x).trans (hmem' x).symm
  rw [hnames, hnames', heq]

end ByCategory.Collects

namespace Classification

theorem isInteresting_iff {c : Classification} : c.isInteresting = true ↔ c.allMethods ≠ ∅ := by
  rw [← NameSet.exists_mem_iff]
  simp only [isInteresting, List.any_eq_true, Bool.not_eq_true', NameSet.isEmpty_eq_false_iff, mem_allMethods,
    ← exists_entry_iff]
  constructor
  · intro h
    obtain ⟨e, he, x, hx⟩ := h
    exact ⟨x, e.1, e, he, rfl, hx⟩
  · intro h
    obtain ⟨x, _, e, he, -, hx⟩ := h
    exact ⟨e, he, x, hx⟩

end Classification

namespace ClassProfile

variable {settings : Settings} {c : ClassProfile}

theorem classify_congr {methods : List MethodProfile} (h : ∀ m, m ∈ methods ↔ m ∈ c.methods) :
    classify settings ⟨c.name, methods⟩ = c.classify settings := by
  have hcategories : (classify settings ⟨c.name, methods⟩).categories = (c.classify settings).categories := by
    refine (collects_classify settings ⟨c.name, methods⟩).unique ((collects_classify settings c).congr fun k x => ?_)
    simp only [h]
  simp only [classify] at hcategories ⊢
  rw [hcategories]

theorem classify_append (more : List MethodProfile) (k : Category) :
    (classify settings ⟨c.name, c.methods ++ more⟩).methods.get k =
      (c.classify settings).methods.get k ∪ (classify settings ⟨c.name, more⟩).methods.get k := by
  refine NameSet.ext_mem fun x => ?_
  simp only [NameSet.mem_union, mem_classify_iff, List.mem_append, or_and_right, exists_or]

theorem classify_eq_empty {k : Category} (h : ∀ m, k.admits settings c.name m = false) :
    (c.classify settings).methods.get k = ∅ := by
  refine NameSet.ext_mem fun x => ?_
  simp [mem_classify_iff, h]

/-- The classification of a class has a set of names for each of the five categories: of the methods that are not left
out, those that the category admits. So the order of the methods and repetitions make no difference, and methods in two
lists are classified as the lists are. A class is not said to call classes of its own kind. -/
theorem classify_is_comprehension (settings : Settings) (c : ClassProfile) :
    (c.classify settings).className = c.name ∧
    (c.classify settings).categories.entries.map Prod.fst =
      [.synchronized, .clientCall, .repositoryCall, .highCallCount, .highBranchCount] ∧
    (∀ k x, x ∈ (c.classify settings).methods.get k ↔
      ∃ m ∈ c.methods, m.name = x ∧ settings.filter.excludes x = false ∧ k.admits settings c.name m = true) ∧
    (∀ methods : List MethodProfile, methods.Perm c.methods ∨ (∀ m, m ∈ methods ↔ m ∈ c.methods) →
      classify settings ⟨c.name, methods⟩ = c.classify settings) ∧
    (∀ more k, (classify settings ⟨c.name, c.methods ++ more⟩).methods.get k =
      (c.classify settings).methods.get k ∪ (classify settings ⟨c.name, more⟩).methods.get k) ∧
    (Text.EndsIn "Client" c.name → (c.classify settings).methods.get .clientCall = ∅) ∧
    (Text.EndsIn "Repository" c.name → (c.classify settings).methods.get .repositoryCall = ∅) ∧
    ((c.classify settings).isInteresting = true ↔ (c.classify settings).allMethods ≠ ∅) := by
  refine ⟨rfl, (collects_classify settings c).keys_eq, fun k x => mem_classify_iff, ?_, classify_append, ?_, ?_,
    Classification.isInteresting_iff⟩
  · intro methods h
    rcases h with hperm | hmem
    · exact classify_congr fun m => hperm.mem_iff
    · exact classify_congr hmem
  · intro h
    have hkind : Dependency.client.names c.name = true := Text.endsWith_iff.mpr h
    exact classify_eq_empty fun m => by simp [Category.admits, hkind]
  · intro h
    have hkind : Dependency.repository.names c.name = true := Text.endsWith_iff.mpr h
    exact classify_eq_empty fun m => by simp [Category.admits, hkind]

/-- A client with two methods of one name, of which one locks and the other calls much, and a method that is left out. -/
def payClient : ClassProfile :=
  ⟨"PayClient", [⟨"take", false, { monitors := 1 }⟩, ⟨"take", false, { calls := 12, callsClient := true }⟩,
    ⟨"toString", true, { calls := 50 }⟩]⟩

theorem classify_is_comprehension_overloaded :
    (∀ k, (payClient.classify {}).methods.get k =
      if k = .synchronized ∨ k = .highCallCount then NameSet.ofList ["take"] else ∅) ∧
    Text.EndsIn "Client" payClient.name ∧ (payClient.classify {}).methods.get .clientCall = ∅ ∧
    classify {} ⟨payClient.name, payClient.methods ++ payClient.methods⟩ = payClient.classify {} := by
  obtain ⟨-, -, -, hcongr, -, hclient, -⟩ := classify_is_comprehension {} payClient
  have hname : Text.EndsIn "Client" payClient.name := ⟨"Pay", by decide⟩
  refine ⟨?_, hname, hclient hname, hcongr _ (.inr fun m => ?_)⟩
  · intro k
    cases k <;> decide +kernel
  · rw [List.mem_append, or_self]

end ClassProfile

end MethodScout
