import Mathlib.Data.List.Forall2
import MethodScout.Proofs.CodeUnits
import MethodScout.Text.Json

/-!
# Reading JSON

A reader of JSON texts in two machines: one turns characters into tokens, the other tokens into a value. Strings,
arrays and objects are read back from the texts that are written of them, at any indentation.
-/

namespace MethodScout.Text.Json

inductive Value where
  | null
  | boolean (b : Bool)
  | number (numeral : String)
  | string (text : String)
  | array (items : List Value)
  | object (members : List (String × Value))

inductive Token where
  | openArray
  | closeArray
  | openObject
  | closeObject
  | comma
  | colon
  /-- A value that is neither an array nor an object. -/
  | scalar (v : Value)

/-! ## From characters to tokens -/

def isBlank (c : Char) : Bool := c = ' ' || c = '\t' || c = '\n' || c = '\r'

def mark? : Char → Option Token
  | '[' => some .openArray
  | ']' => some .closeArray
  | '\x7b' => some .openObject
  | '\x7d' => some .closeObject
  | ',' => some .comma
  | ':' => some .colon
  | _ => none

def isExponent : List Char → Bool
  | [] => true
  | [_] => false
  | e :: sign :: digits =>
    (e = 'e' || e = 'E') && (sign.isDigit || (sign = '+' || sign = '-') && !digits.isEmpty) && digits.all Char.isDigit

def isFraction : List Char → Bool
  | '.' :: digit :: rest => digit.isDigit && isExponent (rest.dropWhile Char.isDigit)
  | rest => isExponent rest

def isUnsigned : List Char → Bool
  | [] => false
  | '0' :: rest => isFraction rest
  | digit :: rest => digit.isDigit && isFraction (rest.dropWhile Char.isDigit)

def isNumeral : List Char → Bool
  | '-' :: rest => isUnsigned rest
  | rest => isUnsigned rest

def word? (word : List Char) : Option Value :=
  if word = "null".toList then some .null
  else if word = "true".toList then some (.boolean true)
  else if word = "false".toList then some (.boolean false)
  else if isNumeral word then some (.number (String.ofList word))
  else none

def isWordChar (c : Char) : Bool := c.isAlphanum || c = '+' || c = '-' || c = '.'

def hexValue? (c : Char) : Option Nat :=
  if c.isDigit then some (c.toNat - 0x30)
  else if 'a' ≤ c ∧ c ≤ 'f' then some (c.toNat - 0x57)
  else if 'A' ≤ c ∧ c ≤ 'F' then some (c.toNat - 0x37)
  else none

/-- The character that a backslash and this one stand for. -/
def unescape? : Char → Option Char
  | '\x22' => some '\x22'
  | '\x5c' => some '\x5c'
  | '/' => some '/'
  | 'b' => some '\x08'
  | 'f' => some '\x0c'
  | 'n' => some '\n'
  | 'r' => some '\r'
  | 't' => some '\t'
  | _ => none

/-- Where the next character stands: outside of words and strings, in a word, in a string, after a backslash, or in the
code of a unit, which ends after the next digit and `owed` more. The latest characters and units stand first. -/
inductive Mode where
  | outside
  | word (chars : List Char)
  | inside (units : List UInt16)
  | escape (units : List UInt16)
  | code (units : List UInt16) (value owed : Nat)

namespace Mode

def start? (c : Char) : Option (Mode × List Token) :=
  if isBlank c then some (outside, [])
  else if c = '\x22' then some (inside [], [])
  else if isWordChar c then some (word [c], [])
  else (mark? c).map fun t => (outside, [t])

/-- Reads a character, and gives the tokens that it ends. -/
def step? (c : Char) : Mode → Option (Mode × List Token)
  | outside => start? c
  | word chars =>
    if isWordChar c then some (word (c :: chars), [])
    else (word? chars.reverse).bind fun v => (start? c).map fun p => (p.1, .scalar v :: p.2)
  | inside units =>
    if c = '\x22' then some (outside, [.scalar (.string (String.ofList (Utf16.decodeLossy units.reverse)))])
    else if c = '\x5c' then some (escape units, [])
    else if c.toNat < 0x20 then none
    else some (inside ((Utf16.encodeChar c).reverse ++ units), [])
  | escape units =>
    if c = 'u' then some (code units 0 3, [])
    else (unescape? c).map fun d => (inside ((Utf16.encodeChar d).reverse ++ units), [])
  | code units value owed =>
    (hexValue? c).map fun digit =>
      match owed with
      | 0 => (inside (UInt16.ofNat (16 * value + digit) :: units), [])
      | owed + 1 => (code units (16 * value + digit) owed, [])

def finish? : Mode → Option (List Token)
  | outside => some []
  | word chars => (word? chars.reverse).map fun v => [.scalar v]
  | _ => none

end Mode

def tokens? : Mode → List Char → Option (List Token)
  | mode, [] => mode.finish?
  | mode, c :: cs => (mode.step? c).bind fun p => (tokens? p.1 cs).map (p.2 ++ ·)

/-! ## From tokens to values -/

/-- An array or object that is not closed, with its items or members so far, the latest first. -/
inductive Frame where
  | array (items : List Value)
  | object (members : List (String × Value)) (key : String)

/-- What the next token has to be; `outer` are the frames around it, the innermost first. -/
inductive State where
  | value (outer : List Frame)
  | key (members : List (String × Value)) (outer : List Frame)
  | colon (members : List (String × Value)) (key : String) (outer : List Frame)
  | after (v : Value) (outer : List Frame)

namespace State

def step? : State → Token → Option State
  | value outer, .scalar v => some (after v outer)
  | value outer, .openArray => some (value (.array [] :: outer))
  | value outer, .openObject => some (key [] outer)
  -- after a comma an item has to follow, so only an empty array can end here
  | value (.array [] :: outer), .closeArray => some (after (.array []) outer)
  | key members outer, .scalar (.string name) => some (colon members name outer)
  | key [] outer, .closeObject => some (after (.object []) outer)
  | colon members name outer, .colon => some (value (.object members name :: outer))
  | after v (.array items :: outer), .comma => some (value (.array (v :: items) :: outer))
  | after v (.array items :: outer), .closeArray => some (after (.array (v :: items).reverse) outer)
  | after v (.object members name :: outer), .comma => some (key ((name, v) :: members) outer)
  | after v (.object members name :: outer), .closeObject =>
    some (after (.object ((name, v) :: members).reverse) outer)
  | _, _ => none

def finish? : State → Option Value
  | after v [] => some v
  | _ => none

end State

def read? (text : String) : Option Value :=
  (tokens? .outside text.toList).bind fun ts => (ts.foldlM State.step? (.value [])).bind State.finish?

/-! ## Tokens of written texts -/

/-- The tokens are those of the text, whatever follows. -/
def Lexes (text : List Char) (ts : List Token) : Prop :=
  ∀ rest, tokens? .outside (text ++ rest) = (tokens? .outside rest).map (ts ++ ·)

theorem Lexes.append {a b : List Char} {ts us : List Token} (ha : Lexes a ts) (hb : Lexes b us) :
    Lexes (a ++ b) (ts ++ us) := by
  intro rest
  rw [List.append_assoc, ha, hb, Option.map_map]
  simp [Function.comp_def]

theorem lexes_nil : Lexes [] [] := by
  intro rest
  simp

theorem lexes_start {c : Char} {ts : List Token} (h : Mode.start? c = some (.outside, ts)) : Lexes [c] ts := by
  intro rest
  simp [tokens?, Mode.step?, h]

theorem lexes_blanks {cs : List Char} (h : ∀ c ∈ cs, isBlank c = true) : Lexes cs [] := by
  induction cs with
  | nil => exact lexes_nil
  | cons c cs ih =>
      obtain ⟨hc, hcs⟩ := List.forall_mem_cons.mp h
      have hstart : Lexes [c] [] := lexes_start (by simp [Mode.start?, hc])
      exact hstart.append (ih hcs)

theorem hexValue?_lowerHexDigit (n : Nat) : hexValue? (lowerHexDigit n) = some (n % 16) := by
  have hall : ∀ d < 16, hexValue? (Nat.digitChar d) = some d := by decide
  exact hall (n % 16) (Nat.mod_lt n (by decide))

/-- A character is written with a backslash and a letter, with a backslash and its code, or as itself. -/
theorem escape_cases (c : Char) :
    (∃ d, d ≠ 'u' ∧ unescape? d = some c ∧ escape c = ['\x5c', d]) ∨
      (c.toNat < 0x20 ∧
        escape c = ['\x5c', 'u', '0', '0', lowerHexDigit (c.toNat / 16), lowerHexDigit c.toNat]) ∨
      (¬c.toNat < 0x20 ∧ c ≠ '\x22' ∧ c ≠ '\x5c' ∧ escape c = [c]) := by
  unfold escape
  split
  case h_8 hquote hbackslash _ _ _ _ _ =>
    by_cases hc : c.toNat < 0x20
    · exact .inr (.inl ⟨hc, if_pos hc⟩)
    · exact .inr (.inr ⟨hc, fun h => hquote (h ▸ rfl), fun h => hbackslash (h ▸ rfl), if_neg hc⟩)
  all_goals
    rename_i h
    refine .inl ⟨_, ?_, ?_, rfl⟩
    · decide
    · rw [← Char.ofNat_toNat c, h]
      decide

/-- A character that ends no token only changes the mode. -/
theorem tokens?_of_step {mode next : Mode} {c : Char} (h : mode.step? c = some (next, [])) (cs : List Char) :
    tokens? mode (c :: cs) = tokens? next cs := by
  rw [tokens?, h, Option.bind_some]
  cases tokens? next cs <;> rfl

theorem tokens?_code {n : Nat} (hn : n < 0x100) (units : List UInt16) (rest : List Char) :
    tokens? (.code units 0 3) ('0' :: '0' :: lowerHexDigit (n / 16) :: lowerHexDigit n :: rest) =
      tokens? (.inside (UInt16.ofNat n :: units)) rest := by
  have hfirst : (Mode.code units 0 3).step? '0' = some (.code units 0 2, []) := rfl
  have hsecond : (Mode.code units 0 2).step? '0' = some (.code units 0 1, []) := rfl
  have hthird : (Mode.code units 0 1).step? (lowerHexDigit (n / 16)) = some (.code units (n / 16) 0, []) := by
    have hdigit : n / 16 % 16 = n / 16 := by omega
    simp [Mode.step?, hexValue?_lowerHexDigit, hdigit]
  have hfourth : (Mode.code units (n / 16) 0).step? (lowerHexDigit n) =
      some (.inside (UInt16.ofNat n :: units), []) := by
    simp only [Mode.step?, hexValue?_lowerHexDigit, Option.map_some, Nat.div_add_mod]
  rw [tokens?_of_step hfirst, tokens?_of_step hsecond, tokens?_of_step hthird, tokens?_of_step hfourth]

/-- In a string, what is written of a character adds its code units. -/
theorem tokens?_escape (c : Char) (units : List UInt16) (rest : List Char) :
    tokens? (.inside units) (escape c ++ rest) = tokens? (.inside ((Utf16.encodeChar c).reverse ++ units)) rest := by
  have hbegin : (Mode.inside units).step? '\x5c' = some (.escape units, []) := rfl
  obtain ⟨d, hd, hunescape, hescape⟩ | ⟨hc, hescape⟩ | ⟨hc, hquote, hbackslash, hescape⟩ := escape_cases c
  · have hletter : (Mode.escape units).step? d = some (.inside ((Utf16.encodeChar c).reverse ++ units), []) := by
      simp [Mode.step?, hd, hunescape]
    simp only [hescape, List.cons_append, List.nil_append]
    rw [tokens?_of_step hbegin, tokens?_of_step hletter]
  · have hunits : Utf16.encodeChar c = [UInt16.ofNat c.toNat] := if_pos (by omega)
    have hcode : (Mode.escape units).step? 'u' = some (.code units 0 3, []) := rfl
    simp only [hescape, List.cons_append, List.nil_append]
    rw [tokens?_of_step hbegin, tokens?_of_step hcode, tokens?_code (by omega), hunits]
    rfl
  · have hself : (Mode.inside units).step? c = some (.inside ((Utf16.encodeChar c).reverse ++ units), []) := by
      simp [Mode.step?, hc, hquote, hbackslash]
    simp only [hescape, List.cons_append, List.nil_append]
    rw [tokens?_of_step hself]

theorem tokens?_flatMap_escape (cs : List Char) (units : List UInt16) (rest : List Char) :
    tokens? (.inside units) (cs.flatMap escape ++ rest) =
      tokens? (.inside ((cs.flatMap Utf16.encodeChar).reverse ++ units)) rest := by
  induction cs generalizing units with
  | nil => rfl
  | cons c cs ih =>
      rw [List.flatMap_cons, List.append_assoc, tokens?_escape, ih]
      simp

theorem lexes_string (s : String) : Lexes (string s).toList [.scalar (.string s)] := by
  have hopening : Mode.outside.step? '\x22' = some (.inside [], []) := rfl
  have hclosing : (Mode.inside (s.toList.flatMap Utf16.encodeChar).reverse).step? '\x22' =
      some (.outside, [.scalar (.string s)]) := by
    have hdecode := Utf16.reads_iff.mp (Utf16.reads_flatMap_encodeChar s.toList)
    simp [Mode.step?, hdecode]
  intro rest
  have htext : (string s).toList ++ rest = '\x22' :: (s.toList.flatMap escape ++ '\x22' :: rest) := by
    simp [string]
  rw [htext, tokens?_of_step hopening, tokens?_flatMap_escape, List.append_nil, tokens?, hclosing, Option.bind_some]

theorem lexes_intercalate {separator : List Char} {ts : List Token} (hseparator : Lexes separator ts)
    {texts : List (List Char)} {tss : List (List Token)} (h : List.Forall₂ Lexes texts tss) :
    Lexes (separator.intercalate texts) (ts.intercalate tss) := by
  induction h with
  | nil => exact lexes_nil
  | cons hfirst hrest ih =>
      cases hrest with
      | nil => simpa using hfirst
      | cons => simpa [List.intercalate_cons_cons] using hfirst.append (hseparator.append ih)

theorem lexes_block {opening closing : String} {t u : Token} (hopening : Lexes opening.toList [t])
    (hclosing : Lexes closing.toList [u]) (indent : Nat) {items : List String} {tss : List (List Token)}
    (h : List.Forall₂ (fun item ts => Lexes item.toList ts) items tss) :
    Lexes (block opening closing indent items).toList (t :: ([.comma].intercalate tss ++ [u])) := by
  have hmargin : Lexes ('\n' :: List.replicate indent ' ') [] :=
    lexes_blanks (by simp [isBlank])
  have hgap : Lexes [' ', ' '] [] := lexes_blanks (by simp [isBlank])
  have hcomma : Lexes [','] [.comma] := lexes_start rfl
  unfold block
  split
  · rename_i hempty
    rw [List.isEmpty_iff] at hempty
    subst hempty
    cases h
    simpa using hopening.append hclosing
  · have hitems := lexes_intercalate (hcomma.append (hmargin.append hgap)) (List.forall₂_map_left_iff.mpr h)
    simpa using hopening.append (hmargin.append (hgap.append (hitems.append (hmargin.append hclosing))))

/-! ## Values of tokens -/

/-- The tokens are read as the value wherever a value can stand. -/
def Parses (ts : List Token) (v : Value) : Prop :=
  ∀ outer, ts.foldlM State.step? (.value outer) = some (.after v outer)

/-- Items with commas between them are read one after the other, up to the bracket that closes them. -/
theorem foldlM_items {β : Type} {R : List Token → β → Prop} (before : List β → State) (after : β → List β → State)
    (done : List β → State) {bracket : Token}
    (hitem : ∀ ts b items, R ts b → ts.foldlM State.step? (before items) = some (after b items))
    (hcomma : ∀ b items, (after b items).step? .comma = some (before (b :: items)))
    (hclose : ∀ b items, (after b items).step? bracket = some (done (b :: items).reverse))
    {ts : List Token} {tss : List (List Token)} {b : β} {bs : List β} (h : R ts b) (hs : List.Forall₂ R tss bs)
    (items : List β) : ([.comma].intercalate (ts :: tss) ++ [bracket]).foldlM State.step? (before items) =
      some (done (items.reverse ++ b :: bs)) := by
  -- on the items after the first one; those before it are in the state
  induction hs generalizing ts b items with
  | nil => simp [hitem ts b items h, hclose]
  | cons hnext _ ih =>
      simpa [List.intercalate_cons_cons, hitem ts b items h, hcomma] using ih hnext (b :: items)

theorem parses_array {tss : List (List Token)} {vs : List Value} (h : List.Forall₂ Parses tss vs) :
    Parses (.openArray :: ([.comma].intercalate tss ++ [.closeArray])) (.array vs) := by
  intro outer
  cases h with
  | nil => rfl
  | cons hfirst hrest =>
      refine foldlM_items (fun items => .value (.array items :: outer))
        (fun v items => .after v (.array items :: outer)) (fun vs => .after (.array vs) outer) ?_
        (fun _ _ => rfl) (fun _ _ => rfl) hfirst hrest []
      intro ts v items hts
      exact hts (.array items :: outer)

/-- The tokens are a key, a colon and the tokens of its value. -/
def ParsesMember (ts : List Token) (m : String × Value) : Prop :=
  ∃ us, ts = .scalar (.string m.1) :: .colon :: us ∧ Parses us m.2

theorem parses_object {tss : List (List Token)} {ms : List (String × Value)} (h : List.Forall₂ ParsesMember tss ms) :
    Parses (.openObject :: ([.comma].intercalate tss ++ [.closeObject])) (.object ms) := by
  intro outer
  cases h with
  | nil => rfl
  | cons hfirst hrest =>
      refine foldlM_items (fun members => .key members outer)
        (fun m members => .after m.2 (.object members m.1 :: outer)) (fun ms => .after (.object ms) outer) ?_
        (fun _ _ => rfl) (fun _ _ => rfl) hfirst hrest []
      rintro _ m members ⟨us, rfl, hus⟩
      exact hus (.object members m.1 :: outer)

/-! ## Values of written texts -/

/-- The text is read as the value wherever a value can stand. -/
def Spells (text : String) (v : Value) : Prop :=
  ∃ ts, Lexes text.toList ts ∧ Parses ts v

theorem exists_between_of_forall₂ {α β γ : Type} {R : α → β → Prop} {S : β → γ → Prop} {as : List α} {cs : List γ}
    (h : List.Forall₂ (fun a c => ∃ b, R a b ∧ S b c) as cs) :
    ∃ bs, List.Forall₂ R as bs ∧ List.Forall₂ S bs cs := by
  induction h with
  | nil => exact ⟨[], .nil, .nil⟩
  | cons hfirst _ ih =>
      obtain ⟨b, hR, hS⟩ := hfirst
      obtain ⟨bs, hRs, hSs⟩ := ih
      exact ⟨b :: bs, .cons hR hRs, .cons hS hSs⟩

theorem spells_string (s : String) : Spells (string s) (.string s) :=
  ⟨_, lexes_string s, fun _ => rfl⟩

theorem spells_array (indent : Nat) {items : List String} {vs : List Value} (h : List.Forall₂ Spells items vs) :
    Spells (array indent items) (.array vs) := by
  have hopening : Lexes "[".toList [.openArray] := lexes_start rfl
  have hclosing : Lexes "]".toList [.closeArray] := lexes_start rfl
  obtain ⟨tss, hlexes, hparses⟩ := exists_between_of_forall₂ h
  exact ⟨_, lexes_block hopening hclosing indent hlexes, parses_array hparses⟩

theorem spells_object (indent : Nat) {members : List (String × String)} {ms : List (String × Value)}
    (h : List.Forall₂ (fun text m => text.1 = m.1 ∧ Spells text.2 m.2) members ms) :
    Spells (object indent members) (.object ms) := by
  have hopening : Lexes "\x7b".toList [.openObject] := lexes_start rfl
  have hclosing : Lexes "\x7d".toList [.closeObject] := lexes_start rfl
  have hcolon : Lexes [':'] [.colon] := lexes_start rfl
  have hspace : Lexes [' '] [] := lexes_start rfl
  have hmembers : List.Forall₂ (fun text m => ∃ ts, Lexes text.toList ts ∧ ParsesMember ts m)
      (members.map fun m => string m.1 ++ ": " ++ m.2) ms := by
    rw [List.forall₂_map_left_iff]
    refine h.imp ?_
    rintro ⟨_, text⟩ ⟨key, v⟩ ⟨rfl, ts, hlexes, hparses⟩
    refine ⟨_, ?_, ts, rfl, hparses⟩
    simpa using (lexes_string _).append (hcolon.append (hspace.append hlexes))
  obtain ⟨tss, hlexes, hparses⟩ := exists_between_of_forall₂ hmembers
  exact ⟨_, lexes_block hopening hclosing indent hlexes, parses_object hparses⟩

theorem Spells.read? {text : String} {v : Value} (h : Spells text v) : read? text = some v := by
  obtain ⟨ts, hlexes, hparses⟩ := h
  have htokens : tokens? .outside text.toList = some ts := by
    simpa [tokens?, Mode.finish?] using hlexes []
  simp [Json.read?, htokens, hparses [], State.finish?]

-- a comma has an item on both sides, and a numeral no leading zero
example : (read? "[0, 10]").isSome = true ∧ (read? "[0, ]").isNone = true ∧ (read? "[00]").isNone = true := by
  decide

end MethodScout.Text.Json
