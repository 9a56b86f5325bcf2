import MethodScout.Text.Utf8

/-!
# Path texts

A path is a text of names with slashes between them. Several slashes count as one, and a slash at the end asks for a
directory, as a final `.` does. To the system paths and names are bytes, which need not be UTF-8; only where they are
shown are they turned into texts.
-/

namespace MethodScout

/-- A path, or a name on it, in the bytes that the system has for it. -/
structure PathText where
  bytes : Bytes
  deriving DecidableEq, Repr

namespace PathText

def ofText (text : String) : PathText := ⟨Text.utf8 text⟩

instance : Coe String PathText := ⟨ofText⟩

def ofTexts (texts : List String) : List PathText := texts.map ofText

instance : Coe (List String) (List PathText) := ⟨ofTexts⟩

instance : Append PathText := ⟨fun a b => ⟨a.bytes ++ b.bytes⟩⟩

/-- The path as it is shown, with U+FFFD for each stretch that is not UTF-8. -/
def shown (path : PathText) : String := Text.Utf8.decodeLossy path.bytes

end PathText

namespace Path

@[match_pattern]
abbrev slash : UInt8 := 0x2F

@[match_pattern]
abbrev dot : UInt8 := 0x2E

/-- The names of a path. -/
def names (path : PathText) : List PathText :=
  ((path.bytes.splitOn slash).map PathText.mk).filter (· != "")

/-- The names with slashes between them. -/
def ofNames (names : List PathText) : PathText :=
  ⟨[slash].intercalate (names.map PathText.bytes)⟩

def endsInSlash (path : PathText) : Bool := path.bytes.getLast? == some slash

/-- The steps that a path takes, one name each. A slash at the end is a final step with an empty name. -/
def steps (path : PathText) : List PathText :=
  if endsInSlash path then names path ++ [PathText.ofText ""] else names path

/-- Whether a path starts at the top, wherever it is used. -/
def isAbsolute (path : PathText) : Bool := path.bytes.head? == some slash

/-- The path of `name` under `base`. -/
def join (base name : PathText) : PathText :=
  if isAbsolute name || base == "" then name
  else if endsInSlash base then base ++ name
  else base ++ "/" ++ name

/-- Removes slashes and `.` steps from the end of a reversed path, but not its first step. -/
def trimEnd : Bytes → Bytes
  | [slash] => [slash]
  | slash :: rest => trimEnd rest
  | [dot, slash] => [slash]
  | dot :: slash :: rest => trimEnd (slash :: rest)
  | path => path
termination_by path => path.length

/-- The path without its last step, or `none` if it has no step to lose. -/
def parent? (path : PathText) : Option PathText :=
  match trimEnd path.bytes.reverse with
  | [] => none
  | [slash] => none
  | last => some ⟨(trimEnd (last.dropWhile (· != slash))).reverse⟩

/-- The last step of a path, if it is a name. -/
def fileName? (path : PathText) : Option PathText :=
  let last := (trimEnd path.bytes.reverse).takeWhile (· != slash)
  if last = [] ∨ last = [dot] ∨ last = [dot, dot] then none else some ⟨last.reverse⟩

end Path

end MethodScout
