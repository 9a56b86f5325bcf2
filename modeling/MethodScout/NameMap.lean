import MethodScout.NameSet

/-!
# Maps from names

A map is kept as the list of its entries in strictly increasing order of their names, so two maps with the same
entries are equal.
-/

namespace MethodScout

/-- Entries in strictly increasing order of their names. -/
structure NameMap (α : Type) where
  entries : List (String × α)
  sorted : entries.Pairwise fun a b => a.1 < b.1
  deriving DecidableEq

namespace NameMap

variable {α : Type}

def empty : NameMap α := ⟨[], .nil⟩

instance : Inhabited (NameMap α) := ⟨empty⟩

def isEmpty (m : NameMap α) : Bool := m.entries.isEmpty

def size (m : NameMap α) : Nat := m.entries.length

def names (m : NameMap α) : List String := m.entries.map Prod.fst

def get? (m : NameMap α) (name : String) : Option α := m.entries.lookup name

/-- Changes the value at a name among entries in increasing order; `f none` is the value for a new name. -/
def alterIn (name : String) (f : Option α → α) : List (String × α) → List (String × α)
  | [] => [(name, f none)]
  | (first, value) :: rest =>
    if name < first then (name, f none) :: (first, value) :: rest
    else if name = first then (first, f (some value)) :: rest
    else (first, value) :: alterIn name f rest

theorem name_of_mem_alterIn {name : String} {f : Option α → α} {l : List (String × α)} {e : String × α}
    (h : e ∈ alterIn name f l) : e.1 = name ∨ ∃ e' ∈ l, e'.1 = e.1 := by
  induction l with
  | nil =>
    rw [List.mem_singleton.1 h]
    exact .inl rfl
  | cons entry rest ih =>
    obtain ⟨first, value⟩ := entry
    unfold alterIn at h
    split at h
    · rcases List.mem_cons.1 h with rfl | h
      · exact .inl rfl
      · exact .inr ⟨e, h, rfl⟩
    · split at h
      · rcases List.mem_cons.1 h with rfl | h
        · exact .inr ⟨(first, value), List.mem_cons_self, rfl⟩
        · exact .inr ⟨e, List.mem_cons_of_mem _ h, rfl⟩
      · rcases List.mem_cons.1 h with rfl | h
        · exact .inr ⟨_, List.mem_cons_self, rfl⟩
        · rcases ih h with h | ⟨e', he', heq⟩
          · exact .inl h
          · exact .inr ⟨e', List.mem_cons_of_mem _ he', heq⟩

theorem sorted_alterIn {name : String} {f : Option α → α} {l : List (String × α)}
    (h : l.Pairwise fun a b => a.1 < b.1) : (alterIn name f l).Pairwise fun a b => a.1 < b.1 := by
  induction l with
  | nil => simp [alterIn]
  | cons entry rest ih =>
    obtain ⟨first, value⟩ := entry
    have ⟨hfirst, hrest⟩ := List.pairwise_cons.1 h
    unfold alterIn
    split
    · next hlt =>
      refine List.pairwise_cons.2 ⟨fun e he => ?_, h⟩
      rcases List.mem_cons.1 he with rfl | he
      · exact hlt
      · exact String.lt_trans hlt (hfirst e he)
    · split
      · exact List.pairwise_cons.2 ⟨hfirst, hrest⟩
      · next hlt hne =>
        refine List.pairwise_cons.2 ⟨fun e he => ?_, ih hrest⟩
        rcases name_of_mem_alterIn he with hname | ⟨e', he', heq⟩
        · exact hname ▸ name_lt_of_not_lt hlt hne
        · exact heq ▸ hfirst e' he'

/-- Changes the value at a name; `f none` is the value for a new name. -/
def alter (m : NameMap α) (name : String) (f : Option α → α) : NameMap α :=
  ⟨alterIn name f m.entries, sorted_alterIn m.sorted⟩

/-- Adds names to the set at a name. -/
def addNames (m : NameMap NameSet) (name : String) (names : NameSet) : NameMap NameSet :=
  m.alter name fun old => old.getD ∅ ∪ names

end NameMap

end MethodScout
