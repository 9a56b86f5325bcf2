import MethodScout.Bytes

/-!
# Code page 437

One byte a character: the lower half is ASCII, the upper half is a table.
-/

namespace MethodScout.Text.CodePage437

/-- The characters of the bytes 0x80 to 0xFF. -/
def upperHalf : Array Char :=
  ("ÇüéâäàåçêëèïîìÄÅÉæÆôöòûùÿÖÜ¢£¥₧ƒ" ++
  "áíóúñÑªº¿⌐¬½¼¡«»░▒▓│┤╡╢╖╕╣║╗╝╜╛┐" ++
  "└┴┬├─┼╞╟╚╔╩╦╠═╬╧╨╤╥╙╘╒╓╫╪┘┌█▄▌▐▀" ++
  "αßΓπΣσµτΦΘΩδ∞φε∩≡±≥≤⌠⌡÷≈°∙·√ⁿ²■\u00A0").toList.toArray

def decodeByte (b : UInt8) : Char :=
  if b < 0x80 then Char.ofNat b.toNat else upperHalf.getD (b.toNat - 0x80) '?'

def decode (bs : Bytes) : String :=
  String.ofList (bs.map decodeByte)

end MethodScout.Text.CodePage437
