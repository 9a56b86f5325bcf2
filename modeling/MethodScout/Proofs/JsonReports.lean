import MethodScout.Proofs.IncludeLists
import MethodScout.Proofs.JsonReader

/-!
# Reading reports in JSON

The JSON text of a report is read as an object with its table of classes and with the tables of the categories that are
there. Unlike the include list, it tells all names apart, so it determines the report.
-/

namespace MethodScout

open Text

/-- The class and its methods as a member of an object. -/
def Row.member (row : Row) : String × Json.Value := (row.1, .array (row.2.map .string))

def NameMap.value (m : NameMap NameSet) : Json.Value := .object (m.rows.map Row.member)

/-- Classes and the methods of each class stand in the order of their bytes. -/
def NameMap.Ordered (m : NameMap NameSet) : Prop :=
  (m.rows.Pairwise fun a b => Text.utf8 a.1 < Text.utf8 b.1) ∧
    ∀ row ∈ m.rows, row.2.Pairwise fun x y => Text.utf8 x < Text.utf8 y

theorem NameMap.ordered (m : NameMap NameSet) : m.Ordered :=
  ⟨m.rows_sorted, fun _ => methods_sorted⟩

theorem Category.key_injective : Function.Injective key := by
  intro j k
  cases j <;> cases k <;> decide

theorem Row.member_injective : Function.Injective Row.member := by
  rintro ⟨c, names⟩ ⟨d, names'⟩ h
  have hstring : Function.Injective Json.Value.string := fun _ _ => Json.Value.string.inj
  simp only [member, Prod.mk.injEq, Json.Value.array.injEq] at h
  rw [h.1, List.map_injective_iff.mpr hstring h.2]

theorem NameMap.value_injective : Function.Injective NameMap.value := by
  intro m n h
  exact eq_of_rows (List.map_injective_iff.mpr Row.member_injective (Json.Value.object.inj h))

namespace Report

/-- The tables of the categories that are there, in the order of the categories. -/
def categoryMembers (r : Report) : List (String × Json.Value) :=
  Category.all.filterMap fun k => (r.category? k).map fun m => (k.key, m.value)

def document (r : Report) : Json.Value :=
  .object [("classes", r.classes.value), ("categories", .object r.categoryMembers)]

theorem spells_namesJson (indent : Nat) (names : NameSet) :
    Json.Spells (namesJson indent names) (.array (names.toList.map .string)) := by
  apply Json.spells_array
  simp [Json.spells_string]

theorem spells_classesJson (indent : Nat) (m : NameMap NameSet) : Json.Spells (classesJson indent m) m.value := by
  apply Json.spells_object
  simp [NameMap.rows, Row.member, spells_namesJson]

theorem spells_categoriesJson (indent : Nat) (r : Report) :
    Json.Spells (categoriesJson indent r) (.object r.categoryMembers) := by
  apply Json.spells_object
  rw [categoryMembers]
  induction Category.all with
  | nil => exact .nil
  | cons k ks ih =>
      cases hk : r.category? k with
      | none => simpa [hk] using ih
      | some m => simpa [hk, spells_classesJson] using ih

theorem spells_json (r : Report) : Json.Spells r.json r.document :=
  Json.spells_object 0 (.cons ⟨rfl, spells_classesJson 2 r.classes⟩ (.cons ⟨rfl, spells_categoriesJson 2 r⟩ .nil))

theorem categoryMembers_sublist (r : Report) :
    (r.categoryMembers.map Prod.fst).Sublist (Category.all.map Category.key) := by
  rw [categoryMembers]
  induction Category.all with
  | nil => exact .slnil
  | cons k ks ih =>
      cases hk : r.category? k with
      | none => simpa [hk] using ih.cons k.key
      | some m => simpa [hk] using ih

theorem lookup_categoryMembers (r : Report) (k : Category) :
    r.categoryMembers.lookup k.key = (r.category? k).map NameMap.value := by
  have hlookup (ks : List Category) :
      (ks.filterMap fun j => (r.category? j).map fun m => (j.key, m.value)).lookup k.key =
        if k ∈ ks then (r.category? k).map NameMap.value else none := by
    induction ks with
    | nil => rfl
    | cons j ks ih =>
        -- keys are distinct, so no other category answers for this one
        by_cases hjk : j = k
        · subst hjk
          cases hj : r.category? j <;> simp [hj, ih]
        · have hkey : ¬k.key = j.key := fun h => hjk (Category.key_injective h).symm
          cases hj : r.category? j <;> simp [hj, ih, hkey, NameMap.lookup_cons_eq_ite, Ne.symm hjk]
  rw [categoryMembers, hlookup, if_pos (Category.mem_all k)]

theorem document_injective : Function.Injective document := by
  intro r s h
  simp only [document, Json.Value.object.injEq, List.cons.injEq, Prod.mk.injEq, true_and, and_true] at h
  have hcategory (k : Category) : r.category? k = s.category? k := by
    apply Option.map_injective NameMap.value_injective
    rw [← lookup_categoryMembers, ← lookup_categoryMembers, h.2]
  have hclasses := NameMap.value_injective h.1
  have htables : r.tables = s.tables := ByCategory.ext_get hcategory
  cases r
  cases s
  exact (mk.injEq ..).mpr ⟨hclasses, htables⟩

/-- The JSON text of a report is read back as its content, with the tables in order and each under its name. So it
determines the report. -/
theorem json_reads_back (r : Report) : Json.read? r.json = some r.document ∧
    r.classes.Ordered ∧ (∀ k, (r.categories.get k).Ordered) ∧
    (∀ k, r.categoryMembers.lookup k.key = (r.category? k).map NameMap.value) ∧
    (r.categoryMembers.map Prod.fst).Sublist
      ["synchronized", "client_call", "repository_call", "high_call_count", "high_branch_count"] ∧
    ∀ s : Report, s.json = r.json ↔ s = r := by
  refine ⟨(spells_json r).read?, r.classes.ordered, fun k => (r.categories.get k).ordered, lookup_categoryMembers r,
    categoryMembers_sublist r, ?_⟩
  intro s
  constructor
  · intro h
    have hread := (spells_json s).read?
    rw [h, (spells_json r).read?] at hread
    exact (document_injective (Option.some.inj hread)).symm
  · rintro rfl
    rfl

end Report

end MethodScout
