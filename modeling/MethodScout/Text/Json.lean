/-!
# JSON text

Strings, arrays and objects as indented text: every item on a line of its own, two columns further in than the
bracket that closes it. `indent` is the column of that bracket.
-/

namespace MethodScout.Text.Json

def lowerHexDigit (n : Nat) : Char := Nat.digitChar (n % 16)

/-- A character as it stands between quotes. -/
def escape (c : Char) : List Char :=
  match c.toNat with
  | 0x22 => ['\x5c', '\x22']
  | 0x5C => ['\x5c', '\x5c']
  | 0x08 => ['\x5c', 'b']
  | 0x09 => ['\x5c', 't']
  | 0x0A => ['\x5c', 'n']
  | 0x0C => ['\x5c', 'f']
  | 0x0D => ['\x5c', 'r']
  | n => if n < 0x20 then ['\x5c', 'u', '0', '0', lowerHexDigit (n / 16), lowerHexDigit n] else [c]

def string (s : String) : String :=
  "\x22" ++ String.ofList (s.toList.flatMap escape) ++ "\x22"

/-- Items between brackets. -/
def block (opening closing : String) (indent : Nat) (items : List String) : String :=
  if items.isEmpty then opening ++ closing
  else
    let margin := "\n" ++ String.ofList (List.replicate indent ' ')
    opening ++ margin ++ "  " ++ String.intercalate ("," ++ margin ++ "  ") items ++ margin ++ closing

def array (indent : Nat) (items : List String) : String :=
  block "[" "]" indent items

/-- An object of members with the texts of their values. -/
def object (indent : Nat) (members : List (String × String)) : String :=
  block "\x7b" "\x7d" indent (members.map fun m => string m.1 ++ ": " ++ m.2)

end MethodScout.Text.Json
