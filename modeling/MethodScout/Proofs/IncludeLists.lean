import MethodScout.Proofs.Aggregation
import MethodScout.Proofs.Utf8Order

/-!
# Reading include lists and listings

An include list is read as it is written: a class up to `[`, names between commas up to `]`, a semicolon, and so on to
the end. A listing is read line by line: the headings in their order, each with the classes on the indented lines below
it. Where no name has a character that ends it, both texts give back the tables that they were written from.
-/

namespace MethodScout

namespace Text

/-- What stands before the first `stop`, and what stands after it. -/
def upTo? (stop : Char) : List Char → Option (List Char × List Char)
  | [] => none
  | c :: cs => if c = stop then some ([], cs) else (upTo? stop cs).map fun p => (c :: p.1, p.2)

/-- The lines of a text of which each has an end. -/
def lines? (text : List Char) : Option (List (List Char)) :=
  if (text.splitOn '\n').getLast? = some [] then some (text.splitOn '\n').dropLast else none

/-- The items of which the text consists, one after the other. -/
def items? {α : Type} (item? : List Char → Option (α × List Char)) (text : List Char) : Option (List α) :=
  match text with
  | [] => some []
  | c :: cs =>
    match item? (c :: cs) with
    | none => none
    | some (a, rest) => if rest.length ≤ cs.length then (items? item? rest).map (a :: ·) else none
termination_by text.length

theorem mapM_map_eq_some {α β : Type} {write : α → β} {read? : β → Option α} {as : List α}
    (h : ∀ a ∈ as, read? (write a) = some a) : (as.map write).mapM read? = some as := by
  induction as with
  | nil => rfl
  | cons a as ih =>
      obtain ⟨ha, has⟩ := List.forall_mem_cons.mp h
      simp [ha, ih has]

theorem upTo?_append {stop : Char} {cs rest : List Char} (h : ¬stop ∈ cs) :
    upTo? stop (cs ++ stop :: rest) = some (cs, rest) := by
  induction cs with
  | nil => simp [upTo?]
  | cons c cs ih =>
      rw [List.mem_cons, not_or] at h
      simp [upTo?, ih h.2, Ne.symm h.1]

theorem lines?_flatMap {lines : List (List Char)} (h : ∀ line ∈ lines, '\n' ∉ line) :
    lines? (lines.flatMap fun line => line ++ ['\n']) = some lines := by
  have hjoin : (lines.flatMap fun line => line ++ ['\n']) = ['\n'].intercalate (lines ++ [[]]) := by
    clear h
    induction lines with
    | nil => rfl
    | cons line lines ih =>
        rw [List.flatMap_cons, ih]
        cases lines <;> simp [List.intercalate]
  have hsplit : (lines.flatMap fun line => line ++ ['\n']).splitOn '\n' = lines ++ [[]] := by
    rw [hjoin]
    apply List.splitOn_intercalate
    · simpa [or_imp, forall_and] using h
    · simp
  simp [lines?, hsplit]

theorem items?_flatMap {α : Type} {item? : List Char → Option (α × List Char)} {write : α → List Char} {as : List α}
    (hread : ∀ a ∈ as, ∀ rest, item? (write a ++ rest) = some (a, rest)) (hne : ∀ a ∈ as, write a ≠ []) :
    items? item? (as.flatMap write) = some as := by
  induction as with
  | nil => rw [List.flatMap_nil, items?]
  | cons a as ih =>
      have ih := ih (fun b hb => hread b (List.mem_cons_of_mem a hb)) fun b hb => hne b (List.mem_cons_of_mem a hb)
      have ha := hread a List.mem_cons_self (as.flatMap write)
      rw [List.flatMap_cons]
      cases hwrite : write a with
      | nil => exact absurd hwrite (hne a List.mem_cons_self)
      | cons c cs =>
          rw [hwrite] at ha
          rw [List.cons_append] at ha ⊢
          rw [items?, ha]
          simp [ih]

end Text

/-! ## Rows -/

/-- A class with its methods as they are read from a text. -/
abbrev Row := String × List String

def NameMap.rows (m : NameMap NameSet) : List Row :=
  m.entries.map fun e => (e.1, e.2.toList)

namespace Row

/-- The names between commas; `gap` stands after each comma. -/
def names? (gap cs : List Char) : Option (List (List Char)) :=
  match cs.splitOn ',' with
  | [] => none
  | first :: rest => (rest.mapM fun part : List Char => part.dropPrefix? gap).map (first :: ·)

/-- A class up to `[` and its methods up to `]`, and what stands after them. -/
def read? (gap text : List Char) : Option (Row × List Char) :=
  (Text.upTo? '[' text).bind fun head =>
    (Text.upTo? ']' head.2).bind fun inner =>
      (names? gap inner.1).map fun names => ((String.ofList head.1, names.map String.ofList), inner.2)

theorem intercalate_append_left (separator a l : List Char) (rest : List (List Char)) :
    separator.intercalate ((a ++ l) :: rest) = a ++ separator.intercalate (l :: rest) := by
  induction a with
  | nil => rfl
  | cons c a ih => rw [List.cons_append, List.intercalate_cons_cons_left, ih, List.cons_append]

theorem intercalate_comma_gap (gap first : List Char) (rest : List (List Char)) :
    (',' :: gap).intercalate (first :: rest) = [','].intercalate (first :: rest.map (gap ++ ·)) := by
  induction rest generalizing first with
  | nil => rfl
  | cons next rest ih =>
      rw [List.map_cons, List.intercalate_cons_cons, List.intercalate_cons_cons, ih, intercalate_append_left]
      simp

theorem names?_intercalate {gap : List Char} {names : List (List Char)} (hgap : ',' ∉ gap) (hne : names ≠ [])
    (h : ∀ x ∈ names, ',' ∉ x) : names? gap ((',' :: gap).intercalate names) = some names := by
  cases names with
  | nil => exact absurd rfl hne
  | cons first rest =>
      have hsplit : ((',' :: gap).intercalate (first :: rest)).splitOn ',' = first :: rest.map (gap ++ ·) := by
        rw [intercalate_comma_gap]
        apply List.splitOn_intercalate
        · simpa [hgap, or_imp, forall_and] using h
        · simp
      have hdrop : ((rest.map (gap ++ ·)).mapM fun part : List Char => part.dropPrefix? gap) = some rest := by
        apply Text.mapM_map_eq_some
        intro x _
        exact List.dropPrefix?_eq_some_iff.mpr ⟨gap, rfl, BEq.rfl⟩
      simp [names?, hsplit, hdrop]

theorem not_mem_intercalate {α : Type} {c : α} {separator : List α} {names : List (List α)} (hseparator : ¬c ∈ separator)
    (h : ∀ x ∈ names, ¬c ∈ x) : ¬c ∈ separator.intercalate names := by
  induction names with
  | nil => simp
  | cons first rest ih =>
      obtain ⟨hfirst, hrest⟩ := List.forall_mem_cons.mp h
      cases rest with
      | nil => simpa using hfirst
      | cons next rest => simp [List.intercalate_cons_cons, hfirst, hseparator, ih hrest]

/-- The row has methods, and neither they nor the class have a character that would end them in a text. -/
structure Readable (row : Row) : Prop where
  methods_ne : row.2 ≠ []
  class_plain : '[' ∉ row.1.toList ∧ '\n' ∉ row.1.toList
  methods_plain : ∀ x ∈ row.2, ',' ∉ x.toList ∧ ']' ∉ x.toList ∧ '\n' ∉ x.toList

/-- The text of a row, with `gap` after each comma. -/
def text (gap : List Char) (row : Row) : List Char :=
  row.1.toList ++ '[' :: ((',' :: gap).intercalate (row.2.map String.toList) ++ [']'])

/-- A row is read back from its text, whatever follows. -/
theorem Readable.read?_append {row : Row} (h : row.Readable) (gap : List Char) (hcomma : ',' ∉ gap)
    (hclose : ']' ∉ gap) (rest : List Char) : read? gap (row.text gap ++ rest) = some (row, rest) := by
  have hinner : ']' ∉ (',' :: gap).intercalate (row.2.map String.toList) := by
    apply not_mem_intercalate
    · simp [hclose]
    · simpa using fun x hx => (h.methods_plain x hx).2.1
  have hsplit : names? gap ((',' :: gap).intercalate (row.2.map String.toList)) = some (row.2.map String.toList) := by
    apply names?_intercalate hcomma
    · simpa using h.methods_ne
    · simpa using fun x hx => (h.methods_plain x hx).1
  simp only [read?, text, List.append_assoc, List.cons_append, Text.upTo?_append h.class_plain.1]
  simp [Text.upTo?_append hinner, hsplit]

theorem Readable.newline_not_mem_text {row : Row} (h : row.Readable) (gap : List Char) (hgap : '\n' ∉ gap) :
    '\n' ∉ row.text gap := by
  have hinner : '\n' ∉ (',' :: gap).intercalate (row.2.map String.toList) := by
    apply not_mem_intercalate
    · simp [hgap]
    · simpa using fun x hx => (h.methods_plain x hx).2.2
  simp [text, h.class_plain.2, hinner]

end Row

/-! ## The two readers -/

namespace Report

def closedRow? (text : List Char) : Option (Row × List Char) :=
  (Row.read? [] text).bind fun p =>
    match p.2 with
    | ';' :: rest => some (p.1, rest)
    | _ => none

def readIncludeList? (text : String) : Option (List Row) :=
  Text.items? closedRow? text.toList

def isIndented (line : List Char) : Bool := line.head? = some '\t'

/-- A row after a tab, on a line of its own. -/
def line? : List Char → Option Row
  | '\t' :: cs => (Row.read? [' '] cs).bind fun p => if p.2.isEmpty then some p.1 else none
  | _ => none

/-- The headings of a listing. -/
def headings : List (Category × String) :=
  [(.synchronized, "Synchronized methods:"), (.clientCall, "Client invocation methods:"),
    (.repositoryCall, "Repository invocation methods:"), (.highCallCount, "High call count methods:"),
    (.highBranchCount, "High branch count methods:")]

/-- The sections under some headings in their order: the heading, and then a row on each indented line. -/
def sections? : List (Category × String) → List (List Char) → Option (List (Category × List Row))
  | [], lines => if lines.isEmpty then some [] else none
  | _ :: _, [] => none
  | (k, heading) :: more, line :: lines =>
    if line = heading.toList then
      ((lines.takeWhile isIndented).mapM line?).bind fun rows =>
        (sections? more (lines.dropWhile isIndented)).map ((k, rows) :: ·)
    else none

def readListing? (text : String) : Option (List (Category × List Row)) :=
  (Text.lines? text.toList).bind (sections? headings)

/-! ## Names that can be told apart -/

/-- No name has a character that would end it in the include list or in the listing. -/
def Separable (r : Report) : Prop :=
  ∀ e ∈ r.classes.entries, ('[' ∉ e.1.toList ∧ '\n' ∉ e.1.toList) ∧
    ∀ x ∈ e.2.toList, ',' ∉ x.toList ∧ ']' ∉ x.toList ∧ '\n' ∉ x.toList

instance (r : Report) : Decidable r.Separable := List.decidableBAll _ _

/-- The include list and the listing are read back as the tables of the report. -/
structure ReadsBack (r : Report) : Prop where
  includeList : readIncludeList? r.includeList = some r.classes.rows
  listing : readListing? r.listing = some (Category.all.map fun k => (k, (r.categories.get k).rows))
  classes_sorted : r.classes.rows.Pairwise fun a b => Text.utf8 a.1 < Text.utf8 b.1
  methods_sorted : ∀ row ∈ r.classes.rows, row.2.Pairwise fun x y => Text.utf8 x < Text.utf8 y
  union : ∀ c x, (∃ row ∈ r.classes.rows, row.1 = c ∧ x ∈ row.2) ↔
    ∃ k, ∃ row ∈ (r.categories.get k).rows, row.1 = c ∧ x ∈ row.2

end Report

/-! ## What is read from the texts of a report -/

theorem NameMap.mem_rows {m : NameMap NameSet} {row : Row} :
    row ∈ m.rows ↔ ∃ names, m.get? row.1 = some names ∧ names.toList = row.2 := by
  simp only [rows, List.mem_map, Prod.exists, mem_entries]
  constructor
  · rintro ⟨c, names, hc, rfl⟩
    exact ⟨names, hc, rfl⟩
  · rintro ⟨names, hc, hnames⟩
    exact ⟨row.1, names, hc, by rw [hnames]⟩

theorem NameMap.exists_mem_rows {m : NameMap NameSet} {c x : String} :
    (∃ row ∈ m.rows, row.1 = c ∧ x ∈ row.2) ↔ ∃ names, m.get? c = some names ∧ x ∈ names := by
  simp only [mem_rows]
  constructor
  · rintro ⟨row, ⟨names, hc, hnames⟩, rfl, hx⟩
    exact ⟨names, hc, by rwa [← hnames] at hx⟩
  · rintro ⟨names, hc, hx⟩
    exact ⟨(c, names.toList), ⟨names, hc, rfl⟩, rfl, hx⟩

theorem NameMap.rows_sorted (m : NameMap NameSet) : m.rows.Pairwise fun a b => Text.utf8 a.1 < Text.utf8 b.1 := by
  rw [rows, List.pairwise_map]
  exact m.sorted.imp Text.utf8_lt_iff.mpr

theorem NameMap.methods_sorted {m : NameMap NameSet} {row : Row} (h : row ∈ m.rows) :
    row.2.Pairwise fun x y => Text.utf8 x < Text.utf8 y := by
  obtain ⟨names, -, hnames⟩ := mem_rows.mp h
  rw [← hnames]
  exact names.sorted.imp Text.utf8_lt_iff.mpr

theorem NameMap.eq_of_rows {m n : NameMap NameSet} (h : m.rows = n.rows) : m = n := by
  have hmem {m : NameMap NameSet} {c : String} {names : NameSet} :
      m.get? c = some names ↔ (c, names.toList) ∈ m.rows := by
    rw [mem_rows]
    constructor
    · intro hc
      exact ⟨names, hc, rfl⟩
    · rintro ⟨names', hc, hnames⟩
      rw [hc, NameSet.ext_mem (s := names') (t := names)]
      intro x
      rw [← NameSet.mem_toList, hnames, NameSet.mem_toList]
  apply ext_get?
  intro c
  apply Option.ext
  intro names
  rw [hmem, hmem, h]

namespace Report

variable {r s : Report} {P Q : Category → String → String → Prop}

theorem toList_includeList (r : Report) :
    r.includeList.toList = r.classes.rows.flatMap fun row => row.text [] ++ [';'] := by
  simp [includeList, includeEntries, NameMap.rows, Row.text, bracketed, List.flatMap_map]

theorem readIncludeList?_includeList (h : ∀ row ∈ r.classes.rows, row.Readable) :
    readIncludeList? r.includeList = some r.classes.rows := by
  rw [readIncludeList?, toList_includeList]
  apply Text.items?_flatMap
  · intro row hrow rest
    rw [closedRow?, List.append_assoc, (h row hrow).read?_append [] (by simp) (by simp)]
    rfl
  · simp

def lines (r : Report) (k : Category) : List (List Char) :=
  k.heading.toList :: (r.categories.get k).rows.map fun row => '\t' :: row.text [' ']

theorem toList_listing (r : Report) :
    r.listing.toList = (Category.all.flatMap r.lines).flatMap fun line => line ++ ['\n'] := by
  simp [listing, NameMap.rows, Row.text, lines, bracketed, List.flatMap_map, List.flatMap_assoc]

theorem isIndented_heading (k : Category) : isIndented k.heading.toList = false := by
  cases k <;> rfl

theorem newline_not_mem_heading (k : Category) : '\n' ∉ k.heading.toList := by
  cases k <;> decide

/-- The rows of a category end where the next heading stands, or with the text. -/
theorem span_rows (k : Category) (ks : List Category) :
    let rows := (r.categories.get k).rows.map fun row => '\t' :: row.text [' ']
    (rows ++ ks.flatMap r.lines).takeWhile isIndented = rows ∧
      (rows ++ ks.flatMap r.lines).dropWhile isIndented = ks.flatMap r.lines := by
  intro rows
  have hrows : ∀ line ∈ rows, isIndented line = true := by
    intro line hline
    obtain ⟨row, -, rfl⟩ := List.mem_map.mp hline
    rfl
  have hrest : (ks.flatMap r.lines).takeWhile isIndented = [] ∧
      (ks.flatMap r.lines).dropWhile isIndented = ks.flatMap r.lines := by
    cases ks with
    | nil => simp
    | cons next ks => simp [lines, isIndented_heading]
  rw [List.takeWhile_append_of_pos hrows, List.dropWhile_append_of_pos hrows, hrest.1, hrest.2]
  simp

theorem sections?_lines (h : ∀ k, ∀ row ∈ (r.categories.get k).rows, row.Readable) (ks : List Category) :
    sections? (ks.map fun k => (k, k.heading)) (ks.flatMap r.lines) =
      some (ks.map fun k => (k, (r.categories.get k).rows)) := by
  induction ks with
  | nil => rfl
  | cons k ks ih =>
      obtain ⟨htake, hdrop⟩ := span_rows (r := r) k ks
      have hrows : ((r.categories.get k).rows.map fun row => '\t' :: row.text [' ']).mapM line? =
          some (r.categories.get k).rows := by
        apply Text.mapM_map_eq_some
        intro row hrow
        have hread := (h k row hrow).read?_append [' '] (by simp) (by simp) []
        rw [List.append_nil] at hread
        simp [line?, hread]
      rw [List.map_cons, List.flatMap_cons, lines, List.cons_append, sections?, if_pos rfl, htake, hdrop, hrows, ih]
      rfl

theorem readListing?_listing (h : ∀ k, ∀ row ∈ (r.categories.get k).rows, row.Readable) :
    readListing? r.listing = some (Category.all.map fun k => (k, (r.categories.get k).rows)) := by
  have hlines : ∀ line ∈ Category.all.flatMap r.lines, '\n' ∉ line := by
    intro line hline
    obtain ⟨k, -, hline⟩ := List.mem_flatMap.mp hline
    rcases List.mem_cons.mp hline with rfl | hline
    · exact newline_not_mem_heading k
    · obtain ⟨row, hrow, rfl⟩ := List.mem_map.mp hline
      simpa using (h k row hrow).newline_not_mem_text [' '] (by simp)
  rw [readListing?, toList_listing, Text.lines?_flatMap hlines]
  exact sections?_lines h Category.all

theorem IsOf.readable_classes (hr : r.IsOf P) (h : r.Separable) : ∀ row ∈ r.classes.rows, row.Readable := by
  intro row hrow
  obtain ⟨names, hc, hnames⟩ := NameMap.mem_rows.mp hrow
  obtain ⟨x, hx⟩ := hr.classes.nonempty row.1 names hc
  obtain ⟨hclass, hmethods⟩ := h _ (NameMap.mem_entries.mpr hc)
  rw [← NameSet.mem_toList] at hx
  rw [hnames] at hmethods hx
  exact ⟨List.ne_nil_of_mem hx, hclass, hmethods⟩

/-- What is in a category is in the table of classes, so a row of a category is readable with the row of its class. -/
theorem IsOf.readable_categories (hr : r.IsOf P) (h : r.Separable) (k : Category) :
    ∀ row ∈ (r.categories.get k).rows, row.Readable := by
  intro row hrow
  have hclass : ∀ x ∈ row.2, ∃ all ∈ r.classes.rows, all.1 = row.1 ∧ x ∈ all.2 := by
    intro x hx
    have hP := ((hr.categories k).mem_iff row.1 x).mp (NameMap.exists_mem_rows.mp ⟨row, hrow, rfl, hx⟩)
    exact NameMap.exists_mem_rows.mpr ((hr.classes.mem_iff row.1 x).mpr ⟨k, hP⟩)
  have hreadable := hr.readable_classes h
  obtain ⟨names, hc, hnames⟩ := NameMap.mem_rows.mp hrow
  obtain ⟨x, hx⟩ := (hr.categories k).nonempty row.1 names hc
  rw [← NameSet.mem_toList, hnames] at hx
  obtain ⟨all, hall, heq, -⟩ := hclass x hx
  refine ⟨List.ne_nil_of_mem hx, heq ▸ (hreadable all hall).class_plain, ?_⟩
  intro y hy
  obtain ⟨all, hall, -, hmem⟩ := hclass y hy
  exact (hreadable all hall).methods_plain y hmem

theorem IsOf.readsBack (hr : r.IsOf P) (h : r.Separable) : r.ReadsBack where
  includeList := readIncludeList?_includeList (hr.readable_classes h)
  listing := readListing?_listing (hr.readable_categories h)
  classes_sorted := r.classes.rows_sorted
  methods_sorted _ := NameMap.methods_sorted
  union := by
    intro c x
    simp only [NameMap.exists_mem_rows, hr.classes.mem_iff, (hr.categories _).mem_iff]

theorem IsOf.eq_of_categories (hr : r.IsOf P) (hs : s.IsOf Q) (h : ∀ k, r.categories.get k = s.categories.get k) :
    r = s := by
  apply hr.unique
  apply hs.congr
  intro k c x
  rw [← (hs.categories k).mem_iff, ← (hr.categories k).mem_iff, h]

/-- Where names can be told apart, the include list and the listing of a report give back its tables, and the same
content. So the include list determines the table of classes, and the listing the whole report. -/
theorem includeList_and_listing_read_back (cs : List Classification) (h : (ofClassifications cs).Separable) :
    (ofClassifications cs).ReadsBack ∧ ∀ ds, (ofClassifications ds).Separable →
      ((ofClassifications cs).includeList = (ofClassifications ds).includeList →
        (ofClassifications cs).classes = (ofClassifications ds).classes) ∧
      ((ofClassifications cs).listing = (ofClassifications ds).listing →
        ofClassifications cs = ofClassifications ds) := by
  have hcs := isOf_ofClassifications cs
  have hback := hcs.readsBack h
  refine ⟨hback, ?_⟩
  intro ds hseparable
  have hds := isOf_ofClassifications ds
  have hback' := hds.readsBack hseparable
  constructor
  · intro heq
    have hrows := hback.includeList
    rw [heq, hback'.includeList] at hrows
    exact (NameMap.eq_of_rows (Option.some.inj hrows)).symm
  · intro heq
    have hrows := hback.listing
    rw [heq, hback'.listing] at hrows
    apply hcs.eq_of_categories hds
    intro k
    have hk := List.map_inj_left.mp (Option.some.inj hrows) k (Category.mem_all k)
    exact (NameMap.eq_of_rows (Prod.mk.inj hk).2).symm

/-- A class with a comma in its name and two methods, one of which has an empty name. -/
def oddClass : Classification :=
  ⟨"odd,];\t", .ofFn fun k => if k = .clientCall then some (.ofList ["", " run"]) else none⟩

theorem includeList_and_listing_read_back_odd :
    (ofClassifications [oddClass, lockedJob]).Separable ∧
      (ofClassifications [oddClass, lockedJob]).ReadsBack ∧
      (ofClassifications [oddClass, lockedJob]).includeList = "Job[run];odd,];\t[, run];" ∧
      ∀ ds, (ofClassifications ds).Separable →
        ((ofClassifications [oddClass, lockedJob]).includeList = (ofClassifications ds).includeList →
          (ofClassifications [oddClass, lockedJob]).classes = (ofClassifications ds).classes) ∧
        ((ofClassifications [oddClass, lockedJob]).listing = (ofClassifications ds).listing →
          ofClassifications [oddClass, lockedJob] = ofClassifications ds) := by
  have hseparable : (ofClassifications [oddClass, lockedJob]).Separable := by decide +kernel
  obtain ⟨hback, hdetermined⟩ := includeList_and_listing_read_back [oddClass, lockedJob] hseparable
  exact ⟨hseparable, hback, by decide +kernel, hdetermined⟩

end Report

end MethodScout
