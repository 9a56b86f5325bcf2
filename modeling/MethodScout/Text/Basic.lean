/-!
# Small questions about texts

Beginnings, endings, parts between separators and hexadecimal numbers.
-/

namespace MethodScout.Text

/-- Whether `text` begins with `head`. -/
def beginsWith (head text : String) : Bool :=
  head.toList.isPrefixOf text.toList

/-- Whether `text` ends with `tail`. -/
def endsWith (tail text : String) : Bool :=
  tail.toList.isSuffixOf text.toList

/-- What stands before `tail` at the end of `text`. -/
def dropEnding? (tail text : String) : Option String :=
  if endsWith tail text then some (String.ofList (text.toList.take (text.length - tail.length))) else none

/-- The parts of `text` between the separators: one more than there are separators. -/
def parts (separator : Char) (text : String) : List String :=
  (text.toList.splitOn separator).map String.ofList

/-- `text` with every character that `p` holds of replaced by `new`. -/
def replaceChars (p : Char → Bool) (new : Char) (text : String) : String :=
  String.ofList (text.toList.map fun c => if p c then new else c)

/-- A number in upper-case hexadecimal with at least `width` digits. -/
def upperHex (width n : Nat) : String :=
  let digits := (Nat.toDigits 16 n).map Char.toUpper
  String.ofList (List.replicate (width - digits.length) '0' ++ digits)

end MethodScout.Text
