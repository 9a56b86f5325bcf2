/-!
# Sets of names

A set of names is kept as the list of its members in strictly increasing order, so two sets with the same members are
equal. Names are ordered by their characters' code points.
-/

namespace MethodScout

theorem name_lt_of_not_lt {a b : String} (h : ¬a < b) (hne : a ≠ b) : b < a := by
  rcases String.le_total a b with hab | hba
  · exact absurd (String.le_antisymm hab (String.not_lt.1 h)) hne
  · exact Classical.byContradiction fun hn => hne (String.le_antisymm (String.not_lt.1 hn) hba)

theorem name_ne_of_lt {a b : String} (h : a < b) : a ≠ b :=
  fun heq => String.lt_irrefl b (heq ▸ h)

/-- Names in strictly increasing order. -/
structure NameSet where
  toList : List String
  sorted : toList.Pairwise (· < ·)
  deriving DecidableEq

namespace NameSet

def empty : NameSet := ⟨[], .nil⟩

instance : Inhabited NameSet := ⟨empty⟩

instance : Membership String NameSet := ⟨fun s name => name ∈ s.toList⟩

instance (name : String) (s : NameSet) : Decidable (name ∈ s) :=
  inferInstanceAs (Decidable (name ∈ s.toList))

def isEmpty (s : NameSet) : Bool := s.toList.isEmpty

def size (s : NameSet) : Nat := s.toList.length

/-- Puts a name in its place among names in increasing order. -/
def insertInto (name : String) : List String → List String
  | [] => [name]
  | first :: rest =>
    if name < first then name :: first :: rest
    else if name = first then first :: rest
    else first :: insertInto name rest

theorem mem_insertInto {name x : String} {l : List String} :
    x ∈ insertInto name l ↔ x = name ∨ x ∈ l := by
  induction l with
  | nil => simp [insertInto]
  | cons first rest ih =>
    unfold insertInto
    split
    · simp
    · split
      · next h => simp [h]
      · simp only [List.mem_cons, ih]
        exact or_left_comm

theorem sorted_insertInto {name : String} {l : List String} (h : l.Pairwise (· < ·)) :
    (insertInto name l).Pairwise (· < ·) := by
  induction l with
  | nil => simp [insertInto]
  | cons first rest ih =>
    have ⟨hfirst, hrest⟩ := List.pairwise_cons.1 h
    unfold insertInto
    split
    · next hlt =>
      refine List.pairwise_cons.2 ⟨fun x hx => ?_, h⟩
      rcases List.mem_cons.1 hx with rfl | hx
      · exact hlt
      · exact String.lt_trans hlt (hfirst x hx)
    · split
      · exact h
      · next hlt hne =>
        refine List.pairwise_cons.2 ⟨fun x hx => ?_, ih hrest⟩
        rcases mem_insertInto.1 hx with rfl | hx
        · exact name_lt_of_not_lt hlt hne
        · exact hfirst x hx

def insert (s : NameSet) (name : String) : NameSet :=
  ⟨insertInto name s.toList, sorted_insertInto s.sorted⟩

/-- The set of the names in a list. -/
def ofList (names : List String) : NameSet :=
  names.foldr (fun name s => s.insert name) empty

def union (s t : NameSet) : NameSet :=
  t.toList.foldr (fun name u => u.insert name) s

instance : Union NameSet := ⟨union⟩

instance : EmptyCollection NameSet := ⟨empty⟩

@[simp]
theorem mem_toList {s : NameSet} {x : String} : x ∈ s.toList ↔ x ∈ s := Iff.rfl

@[simp]
theorem mem_insert {s : NameSet} {name x : String} : x ∈ s.insert name ↔ x = name ∨ x ∈ s :=
  mem_insertInto

@[simp]
theorem not_mem_empty {x : String} : ¬x ∈ empty := List.not_mem_nil

@[simp]
theorem not_mem_emptyCollection {x : String} : ¬x ∈ (∅ : NameSet) := not_mem_empty

theorem mem_foldr_insert {s : NameSet} {names : List String} {x : String} :
    x ∈ names.foldr (fun name u => u.insert name) s ↔ x ∈ names ∨ x ∈ s := by
  induction names with
  | nil => simp
  | cons name rest ih => simp [ih, or_assoc]

@[simp]
theorem mem_ofList {names : List String} {x : String} : x ∈ ofList names ↔ x ∈ names := by
  simp [ofList, mem_foldr_insert]

@[simp]
theorem mem_union {s t : NameSet} {x : String} : x ∈ s ∪ t ↔ x ∈ s ∨ x ∈ t :=
  mem_foldr_insert.trans or_comm

end NameSet

end MethodScout
