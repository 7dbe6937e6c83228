/-!
# Text in UTF-16 units

Lengths and indices of script strings count 16-bit units: one for a character up to `U+FFFF`, and a
pair of surrogates above.
-/

namespace ScriptCore

namespace Text

def unitsOfChar (c : Char) : List Nat :=
  let n := c.toNat
  if n < 0x10000 then [n]
  else [0xD800 + (n - 0x10000) / 0x400, 0xDC00 + (n - 0x10000) % 0x400]

def units (text : String) : List Nat := text.toList.flatMap unitsOfChar

/-- Whether all characters are below `U+0080`. The bytes of such a text are its units. -/
def isAscii (text : String) : Bool := text.toList.all fun c => c.toNat < 0x80

def unitCount (text : String) : Nat :=
  if isAscii text then text.utf8ByteSize else (units text).length

def unitAt? (text : String) (index : Nat) : Option Nat :=
  if isAscii text then text.toUTF8.data[index]?.map UInt8.toNat else (units text)[index]?

/-- A single unit as a text. Half of a surrogate pair is no character and shows as `U+FFFD`. -/
def ofUnit (unit : Nat) : String :=
  let isHalf := 0xD800 ≤ unit && unit ≤ 0xDFFF
  String.singleton (if isHalf then Char.ofNat 0xFFFD else Char.ofNat unit)

end Text

end ScriptCore
