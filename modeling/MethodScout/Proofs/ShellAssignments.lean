import Mathlib.Data.List.Chain
import MethodScout.Proofs.IncludeLists
import MethodScout.Proofs.Scans

/-!
# Reading shell assignments

A shell reads the word between double quotes with some characters of its own: a backslash takes away the end of a line
and the meaning of a few characters, a quote ends the word, and a backquote or a dollar with something to expand makes
the value depend on the shell. A shell assignment assigns the include list exactly if no name has such a character in a
place where it counts.
-/

namespace MethodScout

namespace Shell

/-- A character of a word; it is quoted if a backslash stands before it. -/
structure Symbol where
  char : Char
  quoted : Bool
  deriving DecidableEq

def closing : Symbol := ⟨'\x22', false⟩

/-- The characters that a backslash takes the meaning of: dollar, backquote, quote and backslash. -/
def isQuotable (c : Char) : Bool :=
  c = '$' || c = '\x60' || c = '\x22' || c = '\x5c'

/-- The characters with which a dollar begins an expansion, as POSIX has them: those of names, the digits, the special
parameters, and opening braces and parentheses. A dollar before any other character is taken as it is. Of those POSIX says
nothing, and a shell may have expansions of its own there. -/
def beginsExpansion (c : Char) : Bool :=
  c.isAlphanum || "_@*#?-$!\x7b(".toList.contains c

/-- The characters of a word, without the backslashes that quote and without continued ends of lines. -/
def symbols : List Char → List Symbol
  | [] => []
  | [c] => [⟨c, false⟩]
  | c :: d :: cs =>
    if c = '\x5c' ∧ d = '\n' then symbols cs
    else if c = '\x5c' ∧ isQuotable d then ⟨d, true⟩ :: symbols cs
    else ⟨c, false⟩ :: symbols (d :: cs)

/-- Whether a word has a backquote or a dollar that begins an expansion. -/
def expands : List Symbol → Bool
  | [] => false
  | s :: rest =>
    s = ⟨'\x60', false⟩ || s = ⟨'$', false⟩ && rest.head?.any (fun next => !next.quoted && beginsExpansion next.char) ||
      expands rest

inductive Reading where
  /-- No assignment of one double-quoted word. -/
  | malformed
  /-- The value depends on the environment of the shell. -/
  | environmental
  | assigns (name value : String)
  deriving DecidableEq

def isName (name : String) : Bool :=
  name.toList.head?.any (fun c => c.isAlpha || c = '_') && name.toList.all fun c => c.isAlphanum || c = '_'

def read (text : String) : Reading :=
  match Text.upTo? '=' text.toList with
  | some (name, '\x22' :: rest) =>
    let word := (symbols rest).takeWhile (· ≠ closing)
    if !isName (String.ofList name) then .malformed
    else if expands word then .environmental
    else if (symbols rest).dropWhile (· ≠ closing) = [closing, ⟨'\n', false⟩] then
      .assigns (String.ofList name) (String.ofList (word.map Symbol.char))
    else .malformed
  | _ => .malformed

/-! ## Inert texts -/

/-- No character means anything to the shell in its place. -/
structure Inert (cs : List Char) : Prop where
  quote : '\x22' ∉ cs
  backquote : '\x60' ∉ cs
  dollar : cs.IsChain fun a b => ¬(a = '$' ∧ beginsExpansion b = true)
  backslash : cs.IsChain fun a b => ¬(a = '\x5c' ∧ (b = '\n' ∨ isQuotable b = true))

theorem inert_iff {cs : List Char} : Inert cs ↔ ('\x22' ∉ cs ∧ '\x60' ∉ cs) ∧
    (cs.IsChain fun a b => ¬(a = '$' ∧ beginsExpansion b = true)) ∧
      cs.IsChain fun a b => ¬(a = '\x5c' ∧ (b = '\n' ∨ isQuotable b = true)) :=
  ⟨fun h => ⟨⟨h.quote, h.backquote⟩, h.dollar, h.backslash⟩, fun h => ⟨h.1.1, h.1.2, h.2.1, h.2.2⟩⟩

instance (cs : List Char) : Decidable (Inert cs) := decidable_of_iff _ inert_iff.symm

def plain (cs : List Char) : List Symbol := cs.map fun c => ⟨c, false⟩

theorem length_symbols_le (cs : List Char) : (symbols cs).length ≤ cs.length := by
  fun_induction symbols cs with
  | case1 => simp
  | case2 => simp
  | case3 c d cs _ ih =>
      simp only [List.length_cons]
      omega
  | case4 c d cs _ _ ih =>
      simp only [List.length_cons]
      omega
  | case5 c d cs _ _ ih =>
      simp only [List.length_cons] at ih ⊢
      omega

/-- Every backslash with a meaning makes a word shorter. -/
theorem isChain_of_length_le {cs : List Char} (h : cs.length ≤ (symbols cs).length) :
    cs.IsChain fun a b => ¬(a = '\x5c' ∧ (b = '\n' ∨ isQuotable b = true)) := by
  fun_induction symbols cs with
  | case1 => exact .nil
  | case2 c => exact .singleton c
  | case3 c d cs _ ih =>
      have hle := length_symbols_le cs
      simp only [List.length_cons] at h
      omega
  | case4 c d cs _ _ ih =>
      have hle := length_symbols_le cs
      simp only [List.length_cons] at h
      omega
  | case5 c d cs hline hquotable ih =>
      simp only [List.length_cons] at h ih
      refine List.isChain_cons_cons.mpr ⟨?_, ih (by omega)⟩
      grind

theorem symbols_of_isChain {cs : List Char}
    (h : cs.IsChain fun a b => ¬(a = '\x5c' ∧ (b = '\n' ∨ isQuotable b = true))) : symbols cs = plain cs := by
  fun_induction symbols cs with
  | case1 => rfl
  | case2 c => rfl
  | case3 c d cs hline ih => exact absurd ⟨hline.1, .inl hline.2⟩ (List.isChain_cons_cons.mp h).1
  | case4 c d cs _ hquotable ih => exact absurd ⟨hquotable.1, .inr hquotable.2⟩ (List.isChain_cons_cons.mp h).1
  | case5 c d cs _ _ ih =>
      rw [ih (List.isChain_cons_cons.mp h).2]
      rfl

theorem expands_plain {cs : List Char} : expands (plain cs) = false ↔
    '\x60' ∉ cs ∧ cs.IsChain fun a b => ¬(a = '$' ∧ beginsExpansion b = true) := by
  induction cs with
  | nil => simp [plain, expands]
  | cons c cs ih =>
      have hcons : expands (plain (c :: cs)) = false ↔
          '\x60' ≠ c ∧ (∀ d ∈ cs.head?, ¬(c = '$' ∧ beginsExpansion d = true)) ∧ expands (plain cs) = false := by
        cases cs <;> simp [plain, expands, and_assoc, eq_comm (a := c)]
      rw [hcons, ih, List.isChain_cons, List.mem_cons, not_or]
      tauto

/-- A text is a word whose value is that text exactly if it is inert. -/
theorem inert_iff_symbols {cs : List Char} : Inert cs ↔
    closing ∉ symbols cs ∧ expands (symbols cs) = false ∧ (symbols cs).map Symbol.char = cs := by
  have hclosing : closing ∉ plain cs ↔ '\x22' ∉ cs := by
    simp [plain, closing]
  constructor
  · intro h
    rw [symbols_of_isChain h.backslash]
    refine ⟨hclosing.mpr h.quote, expands_plain.mpr ⟨h.backquote, h.dollar⟩, ?_⟩
    simp [plain, Function.comp_def]
  · rintro ⟨hquote, hexpands, hchars⟩
    have hlength := congrArg List.length hchars
    rw [List.length_map] at hlength
    have hbackslash := isChain_of_length_le hlength.ge
    rw [symbols_of_isChain hbackslash] at hquote hexpands
    obtain ⟨hbackquote, hdollar⟩ := expands_plain.mp hexpands
    exact ⟨hclosing.mp hquote, hbackquote, hdollar, hbackslash⟩

/-! ## Parts of inert texts -/

/-- Whether the character means nothing to the shell, before any other one and after it. -/
def isInert (c : Char) : Bool := !isQuotable c && c ≠ '\n' && !beginsExpansion c

theorem isChain_append_cons {R : Char → Char → Prop} {a b : List Char} {c : Char} (hleft : ∀ x, R x c)
    (hright : ∀ y, R c y) : (a ++ c :: b).IsChain R ↔ a.IsChain R ∧ b.IsChain R := by
  simp [List.isChain_append, List.isChain_cons, hleft, hright]

theorem inert_append_cons {a b : List Char} {c : Char} (hc : isInert c = true) :
    Inert (a ++ c :: b) ↔ Inert a ∧ Inert b := by
  simp only [isInert, isQuotable, Bool.and_eq_true, Bool.not_eq_true', decide_eq_true_eq, Bool.or_eq_false_iff,
    decide_eq_false_iff_not] at hc
  obtain ⟨⟨⟨⟨⟨hdollar, hbackquote⟩, hquote⟩, hbackslash⟩, hline⟩, hexpansion⟩ := hc
  rw [inert_iff, inert_iff, inert_iff, isChain_append_cons (by simp [hexpansion]) (by simp [hdollar]),
    isChain_append_cons (by simp [isQuotable, *]) (by simp [hbackslash])]
  simp only [List.mem_append, List.mem_cons, Ne.symm hquote, Ne.symm hbackquote, false_or, not_or]
  tauto

theorem inert_nil : Inert [] := ⟨by simp, by simp, .nil, .nil⟩

theorem inert_intercalate {names : List (List Char)} : Inert ([','].intercalate names) ↔ ∀ x ∈ names, Inert x := by
  induction names with
  | nil => simp [inert_nil]
  | cons first rest ih =>
      cases rest with
      | nil => simp
      | cons next rest =>
          rw [List.intercalate_cons_cons, List.append_assoc, List.singleton_append,
            inert_append_cons (by decide), ih, List.forall_mem_cons (a := first)]

theorem inert_text {row : Row} :
    Inert (row.text []) ↔ Inert row.1.toList ∧ ∀ x ∈ row.2, Inert x.toList := by
  rw [Row.text, inert_append_cons (by decide), inert_append_cons (by decide), inert_intercalate]
  simp [inert_nil]

theorem inert_rows {rows : List Row} :
    Inert (rows.flatMap fun row => row.text [] ++ [';']) ↔ ∀ row ∈ rows, Inert (row.text []) := by
  induction rows with
  | nil => simp [inert_nil]
  | cons row rows ih =>
      rw [List.flatMap_cons, List.append_assoc, List.singleton_append, inert_append_cons (by decide), ih,
        List.forall_mem_cons]

/-! ## Words of continued lines -/

theorem symbols_append_semicolon (a b : List Char) : symbols (a ++ ';' :: b) = symbols (a ++ [';']) ++ symbols b := by
  -- a backslash takes no meaning from a semicolon, so what follows is read afresh
  have hplain (cs : List Char) : symbols (';' :: cs) = ⟨';', false⟩ :: symbols cs := by
    cases cs <;> simp [symbols]
  fun_induction symbols a with
  | case1 => simp [hplain, symbols]
  | case2 c => simp [symbols, hplain, isQuotable]
  | case3 c d cs hline ih => simpa [symbols, hline] using ih
  | case4 c d cs hline hquotable ih =>
      have hd : d ≠ '\n' := fun h => hline ⟨hquotable.1, h⟩
      simpa [symbols, hquotable, hd] using ih
  | case5 c d cs hline hquotable ih => simpa [symbols, hline, hquotable] using ih

theorem symbols_continued (rows : List Row) (rest : List Char) :
    symbols ((rows.flatMap fun row => row.text [] ++ [';', '\x5c', '\n']) ++ rest) =
      symbols (rows.flatMap fun row => row.text [] ++ [';']) ++ symbols rest := by
  induction rows with
  | nil => rfl
  | cons row rows ih =>
      simp only [List.flatMap_cons, List.append_assoc, List.cons_append, List.nil_append]
      rw [symbols_append_semicolon, symbols_append_semicolon (b := rows.flatMap _), List.append_assoc, ← ih]
      simp [symbols]

/-! ## Reading assignments -/

theorem takeWhile_ne_closing {word rest : List Symbol} (h : closing ∉ word) :
    (word ++ closing :: rest).takeWhile (· ≠ closing) = word := by
  have hword : ∀ s ∈ word, decide (s ≠ closing) = true := fun s hs => decide_eq_true fun heq => h (heq ▸ hs)
  rw [List.takeWhile_append_of_pos hword]
  simp

/-- An assignment ends at its first closing quote. -/
theorem dropWhile_ne_closing {word rest : List Symbol} :
    (word ++ closing :: rest).dropWhile (· ≠ closing) = closing :: rest ↔ closing ∉ word := by
  induction word with
  | nil => simp
  | cons s word ih =>
      by_cases hs : s = closing
      · have hlength : (s :: (word ++ closing :: rest)).length ≠ (closing :: rest).length := by
          simp only [List.length_cons, List.length_append]
          omega
        simpa [hs] using fun heq => hlength (congrArg List.length heq)
      · simpa [hs, Ne.symm hs] using ih

/-- A word in quotes assigns a value exactly if the quote after it is its first one, nothing in it expands, and it has
the characters of the value. -/
theorem read_eq_assigns_iff {text v value : String} {rest : List Char} {word : List Symbol} (hv : isName v = true)
    (htext : text.toList = v.toList ++ '=' :: '\x22' :: rest)
    (hrest : symbols rest = word ++ [closing, ⟨'\n', false⟩]) :
    read text = .assigns v value ↔
      closing ∉ word ∧ expands word = false ∧ word.map Symbol.char = value.toList := by
  have hequals : '=' ∉ v.toList := by
    intro hmem
    simp only [isName, Bool.and_eq_true, List.all_eq_true] at hv
    exact absurd (hv.2 '=' hmem) (by decide)
  rw [read, htext, Text.upTo?_append hequals]
  simp only [String.ofList_toList, hv, hrest, Bool.not_true, Bool.false_eq_true, if_false]
  by_cases hclosing : closing ∈ word
  · rw [if_neg (dropWhile_ne_closing.not.mpr (not_not.mpr hclosing))]
    simp only [hclosing, not_true, false_and, iff_false]
    split <;> simp
  · rw [takeWhile_ne_closing hclosing, if_pos (dropWhile_ne_closing.mpr hclosing)]
    cases expands word with
    | false => simp [hclosing, String.ext_iff]
    | true => simp

end Shell

namespace Report

open Shell

theorem toList_shellAssignment (r : Report) (v : String) : (r.shellAssignment v).toList =
    v.toList ++ '=' :: '\x22' :: '\x5c' :: '\n' ::
      ((r.classes.rows.flatMap fun row => row.text [] ++ [';', '\x5c', '\n']) ++ ['\x22', '\n']) := by
  simp [shellAssignment, includeEntries, NameMap.rows, Row.text, bracketed, List.flatMap_map]

/-- A shell assigns the include list itself exactly if all names are inert. -/
theorem shellAssignment_assigns_includeList_iff (r : Report) {v : String} (hv : isName v = true) :
    Shell.read (r.shellAssignment v) = .assigns v r.includeList ↔
      ∀ row ∈ r.classes.rows, Inert row.1.toList ∧ ∀ x ∈ row.2, Inert x.toList := by
  have hsymbols : symbols ('\x5c' :: '\n' ::
      ((r.classes.rows.flatMap fun row => row.text [] ++ [';', '\x5c', '\n']) ++ ['\x22', '\n'])) =
        symbols r.includeList.toList ++ [closing, ⟨'\n', false⟩] := by
    rw [symbols, if_pos ⟨rfl, rfl⟩, symbols_continued, toList_includeList]
    rfl
  rw [read_eq_assigns_iff hv (toList_shellAssignment r v) hsymbols, ← inert_iff_symbols, toList_includeList, inert_rows]
  simp only [inert_text]

/-- A dollar and a backslash in places where they mean nothing. -/
def harmless : Report :=
  ofClassifications [⟨"Cost", .ofFn fun k => if k = .clientCall then some (.ofList ["$", "\x5cd"]) else none⟩]

theorem shellAssignment_assigns_includeList_iff_harmless :
    isName "METHODS" = true ∧ harmless.includeList = "Cost[$,\x5cd];" ∧
      (Shell.read (harmless.shellAssignment "METHODS") = .assigns "METHODS" harmless.includeList ↔
        ∀ row ∈ harmless.classes.rows, Inert row.1.toList ∧ ∀ x ∈ row.2, Inert x.toList) ∧
      Shell.read (harmless.shellAssignment "METHODS") = .assigns "METHODS" harmless.includeList := by
  have hiff := shellAssignment_assigns_includeList_iff harmless (v := "METHODS") (by decide)
  exact ⟨by decide, by decide +kernel, hiff, hiff.mpr (by decide +kernel)⟩

end Report

namespace Scan

/-- A class with a synchronized method as a compiler makes it of a lambda in `run`. -/
def lambdaClass : Bytes :=
  [0xCA, 0xFE, 0xBA, 0xBE, 0, 0, 0, 52, 0, 5, 1, 0, 3, 74, 111, 98, 7, 0, 1, 1, 0, 12, 108, 97, 109, 98, 100, 97, 36,
   114, 117, 110, 36, 48, 1, 0, 3, 40, 41, 86, 0, 0x21, 0, 2, 0, 0, 0, 0, 0, 0, 0, 1, 0, 0x21, 0, 3, 0, 4, 0, 0, 0, 0]

def lambdaTree : FileTree where
  workingDirectory := ["work"]
  nodes := [(["work", "app"], .directory), (["work", "app", "Job.class"], .file lambdaClass)]
  distinct := by decide

/-- The include list of a scan can have a name that a shell expands. -/
theorem scanPaths_shellAssignment_expands_lambda :
    ∃ out, scanPaths lambdaTree {} ["app"] = .ok out ∧ out.report.includeList = "Job[lambda$run$0];" ∧
      Shell.read (out.report.shellAssignment "METHODS") = .environmental := by
  have hrun : (scanPaths lambdaTree {} ["app"]).toOption.map (fun out =>
      (out.report.includeList, Shell.read (out.report.shellAssignment "METHODS"))) =
        some ("Job[lambda$run$0];", .environmental) := by decide +kernel
  obtain ⟨out, hout, hpair⟩ := Attempt.toOption_map_eq_some.mp hrun
  exact ⟨out, hout, (Prod.mk.inj hpair).1, (Prod.mk.inj hpair).2⟩

end Scan

end MethodScout
