import Mathlib.Data.List.Infix
import MethodScout.FileTree.Listing
import MethodScout.Proofs.IncludeLists
import MethodScout.Proofs.Utf8Sequences

/-!
# Paths made of names

A way down a file tree is a list of names, and as a path it is those names with slashes between them. The path has
these names again, also behind the path of a directory. The resource name of a way is that path if the names are UTF-8.
-/

namespace MethodScout

namespace PathText

variable {a b : String} {p q : PathText}

@[simp]
theorem bytes_append (p q : PathText) : (p ++ q).bytes = p.bytes ++ q.bytes := rfl

@[simp]
theorem bytes_empty : (ofText "").bytes = [] := rfl

@[simp]
theorem bytes_slash : (ofText "/").bytes = [Path.slash] := by decide

theorem bytes_injective (h : p.bytes = q.bytes) : p = q := congrArg mk h

theorem bytes_eq_nil_iff : p.bytes = [] ↔ p = "" := ⟨fun h => bytes_injective h, fun h => h ▸ rfl⟩

theorem append_assoc (p q r : PathText) : p ++ q ++ r = p ++ (q ++ r) := bytes_injective (List.append_assoc _ _ _)

theorem empty_append (p : PathText) : ofText "" ++ p = p := rfl

@[simp]
theorem ofText_inj : ofText a = ofText b ↔ a = b := by
  rw [ofText, ofText, mk.injEq, Text.utf8_inj]

theorem ofText_append (a b : String) : ofText (a ++ b) = ofText a ++ ofText b :=
  bytes_injective (Text.utf8_append a b)

@[simp]
theorem shown_ofText (text : String) : (ofText text).shown = text := Text.Utf8.decodeLossy_utf8 text

/-- The bytes are UTF-8. -/
def IsText (p : PathText) : Prop := ∃ text : String, p = text

theorem isText_iff : p.IsText ↔ (Text.Utf8.decode? p.bytes).isSome = true := by
  simp only [IsText, Option.isSome_iff_exists, Text.Utf8.decode?_eq_some_iff_utf8]
  exact exists_congr fun text => ⟨fun h => h ▸ rfl, fun h => bytes_injective h⟩

instance (p : PathText) : Decidable p.IsText := decidable_of_iff _ isText_iff.symm

end PathText

/-- The ending with something before it. -/
def Resource.IsClassName (name : PathText) : Prop := ∃ stem : PathText, stem ≠ "" ∧ name = stem ++ ending

namespace Path

/-- A name that a node can have. -/
structure IsName (name : PathText) : Prop where
  ne_empty : name ≠ ""
  ne_here : name ≠ "."
  ne_above : name ≠ ".."
  no_slash : slash ∉ name.bytes
  no_nul : 0 ∉ name.bytes
  short : name.bytes.length ≤ FileTree.nameLimit

instance (name : PathText) : Decidable (IsName name) :=
  decidable_of_iff (name ≠ "" ∧ name ≠ "." ∧ name ≠ ".." ∧ slash ∉ name.bytes ∧ 0 ∉ name.bytes ∧
      name.bytes.length ≤ FileTree.nameLimit)
    ⟨fun h => ⟨h.1, h.2.1, h.2.2.1, h.2.2.2.1, h.2.2.2.2.1, h.2.2.2.2.2⟩,
      fun h => ⟨h.ne_empty, h.ne_here, h.ne_above, h.no_slash, h.no_nul, h.short⟩⟩

variable {name base : PathText} {way : List PathText}

theorem IsName.bytes_ne_nil (h : IsName name) : name.bytes ≠ [] := fun heq => h.ne_empty (PathText.bytes_eq_nil_iff.mp heq)

/-! ## Names with slashes between them -/

theorem ofNames_singleton (name : PathText) : ofNames [name] = name :=
  PathText.bytes_injective (by simp [ofNames])

theorem ofNames_cons_cons (first next : PathText) (rest : List PathText) :
    ofNames (first :: next :: rest) = first ++ "/" ++ ofNames (next :: rest) := by
  apply PathText.bytes_injective
  simp [ofNames, List.intercalate_cons_cons]

/-- The last name of a way, and what stands before it. -/
theorem exists_folder_of_way (h : way ≠ []) :
    ∃ last, way.getLast? = some last ∧ (ofNames way = last ∨ ∃ folder, ofNames way = folder ++ "/" ++ last) := by
  induction way with
  | nil => exact absurd rfl h
  | cons first rest ih =>
      cases rest with
      | nil => exact ⟨first, rfl, .inl (ofNames_singleton first)⟩
      | cons next rest =>
          obtain ⟨last, hlast, hrest⟩ := ih (List.cons_ne_nil _ _)
          refine ⟨last, hlast, .inr ?_⟩
          rcases hrest with hrest | ⟨folder, hrest⟩
          · exact ⟨first, by rw [ofNames_cons_cons, hrest]⟩
          · exact ⟨first ++ "/" ++ folder, by simp only [ofNames_cons_cons, hrest, PathText.append_assoc]⟩

theorem head?_ofNames (h : ∀ name ∈ way, IsName name) : (ofNames way).bytes.head? ≠ some slash := by
  cases way with
  | nil => simp [ofNames]
  | cons first rest =>
      have hfirst := h first List.mem_cons_self
      have hhead : (ofNames (first :: rest)).bytes.head? = first.bytes.head? := by
        cases rest with
        | nil => rw [ofNames_singleton]
        | cons next rest =>
            rw [ofNames_cons_cons, PathText.append_assoc, PathText.bytes_append,
              List.head?_append_of_ne_nil _ hfirst.bytes_ne_nil]
      rw [hhead]
      exact fun hslash => hfirst.no_slash (List.mem_of_head? hslash)

theorem isAbsolute_ofNames (h : ∀ name ∈ way, IsName name) : isAbsolute (ofNames way) = false := by
  simpa [isAbsolute] using head?_ofNames h

theorem IsName.endsInSlash_append (h : IsName name) (folder : PathText) : endsInSlash (folder ++ name) = false := by
  rw [endsInSlash, PathText.bytes_append, List.getLast?_append_of_ne_nil _ h.bytes_ne_nil]
  simpa using fun hlast => h.no_slash (List.mem_of_getLast? hlast)

theorem endsInSlash_ofNames (hne : way ≠ []) (h : ∀ name ∈ way, IsName name) (folder : PathText) :
    endsInSlash (folder ++ ofNames way) = false := by
  obtain ⟨last, hlast, hway⟩ := exists_folder_of_way hne
  have hname := h last (List.mem_of_getLast? hlast)
  rcases hway with hway | ⟨folder', hway⟩
  · rw [hway, hname.endsInSlash_append]
  · rw [hway, ← PathText.append_assoc, hname.endsInSlash_append]

theorem nul_not_mem_ofNames (h : ∀ name ∈ way, IsName name) : 0 ∉ (ofNames way).bytes := by
  apply Row.not_mem_intercalate (by decide)
  intro bs hbs
  obtain ⟨name, hname, rfl⟩ := List.mem_map.mp hbs
  exact (h name hname).no_nul

/-! ## Names and steps -/

theorem names_append (a b : PathText) : names (a ++ "/" ++ b) = names a ++ names b := by
  have hsplit : (a ++ "/" ++ b).bytes.splitOn slash = a.bytes.splitOn slash ++ b.bytes.splitOn slash := by
    simpa using List.splitOn_append_cons_self a.bytes b.bytes
  simp only [names, hsplit, List.map_append, List.filter_append]

theorem IsName.names_eq (h : IsName name) : names name = [name] := by
  simp [names, List.splitOn_eq_singleton h.no_slash, h.ne_empty]

theorem names_ofNames (h : ∀ name ∈ way, IsName name) : names (ofNames way) = way := by
  induction way with
  | nil => rfl
  | cons first rest ih =>
      obtain ⟨hfirst, hrest⟩ := List.forall_mem_cons.mp h
      cases rest with
      | nil => rw [ofNames_singleton, hfirst.names_eq]
      | cons next rest => rw [ofNames_cons_cons, names_append, hfirst.names_eq, ih hrest, List.singleton_append]

/-- Different ways are different paths. -/
theorem ofNames_inj {way' : List PathText} (h : ∀ name ∈ way, IsName name) (h' : ∀ name ∈ way', IsName name)
    (heq : ofNames way = ofNames way') : way = way' := by
  rw [← names_ofNames h, heq, names_ofNames h']

/-! ## Ways behind a directory -/

theorem join_eq (hbase : base ≠ "") (h : ∀ name ∈ way, IsName name) :
    join base (ofNames way) = (if endsInSlash base then base else base ++ "/") ++ ofNames way := by
  rw [join, isAbsolute_ofNames h]
  simp only [hbase, beq_iff_eq, Bool.false_or, ↓reduceIte]
  split <;> rfl

theorem isAbsolute_append (hbase : base ≠ "") (rest : PathText) : isAbsolute (base ++ rest) = isAbsolute base := by
  have hne : base.bytes ≠ [] := fun heq => hbase (PathText.bytes_eq_nil_iff.mp heq)
  rw [isAbsolute, PathText.bytes_append, List.head?_append_of_ne_nil _ hne, isAbsolute]

theorem exists_of_endsInSlash (h : endsInSlash base = true) : ∃ before, base = before ++ "/" := by
  obtain ⟨before, hbefore⟩ := List.getLast?_eq_some_iff.mp (beq_iff_eq.mp h)
  exact ⟨⟨before⟩, PathText.bytes_injective (by simp [hbefore])⟩

theorem names_append_slash (base : PathText) : names (base ++ "/") = names base := by
  have hempty : base ++ "/" = base ++ "/" ++ "" := PathText.bytes_injective (by simp)
  rw [hempty, names_append]
  exact List.append_nil _

theorem steps_join (hbase : base ≠ "") (hne : way ≠ []) (h : ∀ name ∈ way, IsName name) :
    steps (join base (ofNames way)) = names base ++ way := by
  rw [join_eq hbase h, steps, endsInSlash_ofNames hne h]
  simp only [Bool.false_eq_true, ↓reduceIte]
  split
  · rename_i hslash
    obtain ⟨before, rfl⟩ := exists_of_endsInSlash hslash
    rw [names_append, names_append_slash, names_ofNames h]
  · rw [names_append, names_ofNames h]

theorem isAbsolute_join (hbase : base ≠ "") (h : ∀ name ∈ way, IsName name) :
    isAbsolute (join base (ofNames way)) = isAbsolute base := by
  rw [join_eq hbase h]
  split
  · exact isAbsolute_append hbase _
  · rw [PathText.append_assoc, isAbsolute_append hbase]

theorem join_ne_empty (hbase : base ≠ "") (h : ∀ name ∈ way, IsName name) : join base (ofNames way) ≠ "" := by
  rw [join_eq hbase h, Ne, ← PathText.bytes_eq_nil_iff]
  split <;> simp [PathText.bytes_eq_nil_iff, hbase]

theorem nul_not_mem_join (hbase : base ≠ "") (h : ∀ name ∈ way, IsName name) (hnul : 0 ∉ base.bytes) :
    0 ∉ (join base (ofNames way)).bytes := by
  rw [join_eq hbase h, PathText.bytes_append, List.mem_append, not_or]
  refine ⟨?_, nul_not_mem_ofNames h⟩
  split
  · exact hnul
  · rw [PathText.bytes_append, PathText.bytes_slash, List.mem_append, not_or]
    exact ⟨hnul, by decide⟩

/-! ## The last name of a path -/

/-- Nothing is trimmed behind a name. -/
theorem IsName.trimEnd_append (h : IsName name) (before : Bytes) :
    trimEnd (name.bytes.reverse ++ before) = name.bytes.reverse ++ before := by
  obtain ⟨c, cs, hcs⟩ : ∃ c cs, name.bytes.reverse = c :: cs :=
    List.exists_cons_of_ne_nil (by simpa using h.bytes_ne_nil)
  have hslash : slash ∉ c :: cs := by
    rw [← hcs, List.mem_reverse]
    exact h.no_slash
  -- a dot before a slash is a name of its own
  have hdot : c = dot → (cs ++ before).head? ≠ some slash := by
    rintro rfl hhead
    cases cs with
    | nil => exact h.ne_here (PathText.bytes_injective (List.reverse_injective hcs))
    | cons next cs =>
        simp only [List.cons_append, List.head?_cons, Option.some.injEq] at hhead
        simp [hhead] at hslash
  rw [hcs, List.cons_append]
  generalize cs ++ before = rest at hdot
  unfold trimEnd
  split <;> simp_all

theorem takeWhile_append_of_not_mem {c : UInt8} {cs before : Bytes} (h : c ∉ cs)
    (hbefore : before = [] ∨ before.head? = some c) : (cs ++ before).takeWhile (· != c) = cs := by
  have hall : ∀ x ∈ cs, (x != c) = true := fun x hx => bne_iff_ne.mpr fun heq => h (heq ▸ hx)
  rw [List.takeWhile_append_of_pos hall]
  cases before with
  | nil => simp
  | cons first before => simp_all

theorem IsName.fileName?_eq (h : IsName name) {path : PathText}
    (hpath : path = name ∨ ∃ folder, path = folder ++ "/" ++ name) : fileName? path = some name := by
  obtain ⟨before, hreverse, hbefore⟩ : ∃ before : Bytes,
      path.bytes.reverse = name.bytes.reverse ++ before ∧ (before = [] ∨ before.head? = some slash) := by
    rcases hpath with rfl | ⟨folder, rfl⟩
    · exact ⟨[], by simp, .inl rfl⟩
    · exact ⟨slash :: folder.bytes.reverse, by simp, .inr rfl⟩
  have hne : ¬(name.bytes.reverse = [] ∨ name.bytes.reverse = [dot] ∨ name.bytes.reverse = [dot, dot]) := by
    rintro (heq | heq | heq)
    · exact h.bytes_ne_nil (List.reverse_eq_nil_iff.mp heq)
    · exact h.ne_here (PathText.bytes_injective (List.reverse_injective heq))
    · exact h.ne_above (PathText.bytes_injective (List.reverse_injective heq))
  have hslash : slash ∉ name.bytes.reverse := by simpa using h.no_slash
  simp only [fileName?, hreverse, h.trimEnd_append before, takeWhile_append_of_not_mem hslash hbefore, hne,
    ↓reduceIte, List.reverse_reverse]

theorem namesClass_ofNames (hne : way ≠ []) (h : ∀ name ∈ way, IsName name) :
    namesClass (ofNames way) = true ↔ ∃ last, way.getLast? = some last ∧ Resource.IsClassName last := by
  obtain ⟨last, hlast, hway⟩ := exists_folder_of_way hne
  have hname := h last (List.mem_of_getLast? hlast)
  simp only [namesClass, hname.fileName?_eq hway, hlast, Option.some.injEq, exists_eq_left', Bool.and_eq_true,
    List.isSuffixOf_iff_suffix, bne_iff_ne, Resource.IsClassName]
  constructor
  · rintro ⟨⟨stem, hstem⟩, hne⟩
    obtain rfl : last = ⟨stem⟩ ++ PathText.ofText Resource.ending := PathText.bytes_injective hstem.symm
    exact ⟨⟨stem⟩, fun heq => hne (by rw [heq, PathText.empty_append]), rfl⟩
  · rintro ⟨stem, hstem, rfl⟩
    refine ⟨⟨stem.bytes, rfl⟩, fun heq => hstem (PathText.bytes_eq_nil_iff.mp ?_)⟩
    simpa using congrArg PathText.bytes heq

/-! ## Ways in UTF-8 -/

/-- Every name on the way is UTF-8. -/
def IsTextual (way : List PathText) : Prop := ∀ name ∈ way, name.IsText

instance (way : List PathText) : Decidable (IsTextual way) := inferInstanceAs (Decidable (∀ name ∈ way, _))

/-- Names in UTF-8 are shown as they are. -/
theorem ofText_resource (h : IsTextual way) : PathText.ofText (Resource.ofNames way) = ofNames way := by
  induction way with
  | nil => rfl
  | cons first rest ih =>
      obtain ⟨⟨text, rfl⟩, hrest⟩ := List.forall_mem_cons.mp h
      cases rest with
      | nil => simp [Resource.ofNames, ofNames_singleton]
      | cons next rest =>
          rw [ofNames_cons_cons, ← ih hrest]
          simp [Resource.ofNames, String.intercalate_cons_cons, PathText.ofText_append]

theorem isTextual_of_ofNames {text : String} (h : ofNames way = text) : IsTextual way := by
  induction way generalizing text with
  | nil => simp [IsTextual]
  | cons first rest ih =>
      cases rest with
      | nil =>
          rw [ofNames_singleton] at h
          exact List.forall_mem_singleton.mpr ⟨text, h⟩
      | cons next rest =>
          -- the text is cut at the first slash
          rw [ofNames_cons_cons] at h
          have hcut : (PathText.ofText text).bytes = first.bytes ++ slash :: (ofNames (next :: rest)).bytes := by
            simpa using (congrArg PathText.bytes h).symm
          obtain ⟨front, back, hfront, hback⟩ := Text.Utf8.exists_texts_of_cut (by decide) hcut
          exact List.forall_mem_cons.mpr ⟨⟨front, PathText.bytes_injective hfront⟩, ih (PathText.bytes_injective hback)⟩

theorem isTextual_iff : IsTextual way ↔ PathText.ofText (Resource.ofNames way) = ofNames way :=
  ⟨ofText_resource, fun h => isTextual_of_ofNames h.symm⟩

end Path

end MethodScout
