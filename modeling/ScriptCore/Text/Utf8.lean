/-!
# Bytes as text

Text is stored as UTF-8. Bytes that are no UTF-8 are read leniently: each longest run of bytes that
begins a character without finishing it, and each byte that can begin none, reads as `U+FFFD`.
-/

namespace ScriptCore

namespace Text

/-- A character begun: its bits so far, how many bytes are missing, and the bounds of the next. -/
structure Begun where
  bits : Nat
  missing : Nat
  least : Nat
  greatest : Nat

/-- What a byte is at the beginning of a character: the whole of it, the first of several bytes, or
nothing. -/
inductive Opening where
  | whole (c : Char)
  | first (begun : Begun)
  | bad

def replacement : Char := Char.ofNat 0xFFFD

/-- The bounds of the second byte keep out overlong forms, surrogates and what lies past the last
code point. -/
def openByte (b : Nat) : Opening :=
  if b < 0x80 then .whole (Char.ofNat b)
  else if 0xC2 ≤ b ∧ b ≤ 0xDF then .first ⟨b - 0xC0, 1, 0x80, 0xBF⟩
  else if b = 0xE0 then .first ⟨0, 2, 0xA0, 0xBF⟩
  else if b = 0xED then .first ⟨0xD, 2, 0x80, 0x9F⟩
  else if 0xE1 ≤ b ∧ b ≤ 0xEF then .first ⟨b - 0xE0, 2, 0x80, 0xBF⟩
  else if b = 0xF0 then .first ⟨0, 3, 0x90, 0xBF⟩
  else if 0xF1 ≤ b ∧ b ≤ 0xF3 then .first ⟨b - 0xF0, 3, 0x80, 0xBF⟩
  else if b = 0xF4 then .first ⟨4, 3, 0x80, 0x8F⟩
  else .bad

/-- Read bytes as characters, `begun` being a character that has begun. -/
def readBytes (begun : Option Begun) (bytes : List Nat) : List Char :=
  match bytes, begun with
  | [], none => []
  | [], some _ => [replacement]
  | b :: rest, some c =>
    if c.least ≤ b ∧ b ≤ c.greatest then
      let bits := c.bits * 64 + (b - 0x80)
      if c.missing = 1 then Char.ofNat bits :: readBytes none rest
      else readBytes (some ⟨bits, c.missing - 1, 0x80, 0xBF⟩) rest
    else
      match openByte b with
      | .whole d => replacement :: d :: readBytes none rest
      | .first next => replacement :: readBytes (some next) rest
      | .bad => replacement :: replacement :: readBytes none rest
  | b :: rest, none =>
    match openByte b with
    | .whole d => d :: readBytes none rest
    | .first next => readBytes (some next) rest
    | .bad => replacement :: readBytes none rest

def ofBytes (bytes : List UInt8) : String :=
  String.ofList (readBytes none (bytes.map UInt8.toNat))

def toBytes (text : String) : List UInt8 := text.toUTF8.toList

end Text

end ScriptCore
