import ScriptCore.Number.Decimal
import ScriptCore.Text.Blank

/-!
# Numerals

The numeric texts that scripts accept: decimal numerals, hexadecimal integers below `2 ^ 64` and the
infinities. Blank text reads as zero and every other text as `nan`.
-/

namespace ScriptCore

namespace Numeral

def spanDigits (cs : List Char) : List Char × List Char :=
  (cs.takeWhile Char.isDigit, cs.dropWhile Char.isDigit)

/-- A leading sign, if there is one: whether it is a minus, and what follows. -/
def spanSign : List Char → Bool × List Char
  | '-' :: rest => (true, rest)
  | '+' :: rest => (false, rest)
  | cs => (false, cs)

/-- A whole number written in decimal digits, at least one of them, and nothing else. -/
def natural? (cs : List Char) : Option Nat :=
  if cs ≠ [] ∧ cs.all Char.isDigit then some (Nat.ofDigitChars 10 cs 0) else none

/-- An exponent, which is nothing at all or `e` with a whole number that may have a sign. -/
def exponent? : List Char → Option Int
  | [] => some 0
  | c :: rest =>
    if c = 'e' ∨ c = 'E' then
      let (negative, digits) := spanSign rest
      (natural? digits).map fun n => if negative then -(n : Int) else (n : Int)
    else none

/-- A decimal numeral without its sign: digits with an optional point, at least one digit, and an
optional exponent. -/
def decimal? (cs : List Char) : Option Decimal :=
  let (whole, rest) := spanDigits cs
  let (fraction, rest) :=
    match rest with
    | '.' :: after => spanDigits after
    | _ => ([], rest)
  if whole ++ fraction = [] then none
  else (exponent? rest).map fun e =>
    ⟨Nat.ofDigitChars 10 (whole ++ fraction) 0, e - fraction.length⟩

def hexDigit? (c : Char) : Option Nat :=
  if '0' ≤ c ∧ c ≤ '9' then some (c.toNat - '0'.toNat)
  else if 'a' ≤ c ∧ c ≤ 'f' then some (c.toNat - 'a'.toNat + 10)
  else if 'A' ≤ c ∧ c ≤ 'F' then some (c.toNat - 'A'.toNat + 10)
  else none

/-- The value of hexadecimal digits, at least one of them, after the value read so far. -/
def hexDigits? : Nat → List Char → Option Nat
  | _, [] => none
  | acc, [c] => (hexDigit? c).map (acc * 16 + ·)
  | acc, c :: rest => (hexDigit? c).bind fun d => hexDigits? (acc * 16 + d) rest

/-- A hexadecimal integer after its mark `0x`, which may carry a plus and must be below `2 ^ 64`. -/
def hexadecimal? (cs : List Char) : Option Nat :=
  let digits := match cs with
    | '+' :: rest => rest
    | _ => cs
  (hexDigits? 0 digits).filter (· < UInt64.size)

def read (cs : List Char) : Double :=
  match cs with
  | [] => .zero false
  | '0' :: 'x' :: hex | '0' :: 'X' :: hex =>
    match hexadecimal? hex with
    | some n => .ofInt n
    | none => .nan
  | _ =>
    let (negative, rest) := spanSign cs
    if rest = "Infinity".toList then .infinity negative
    else
      match decimal? rest with
      | some d => d.nearest negative
      | none => .nan

def ofText (text : String) : Double := read (Text.trim text.toList)

/-- A whole number below `2 ^ 64` in decimal digits, which may carry a plus. -/
def size? (cs : List Char) : Option Nat :=
  let digits := match cs with
    | '+' :: rest => rest
    | _ => cs
  (natural? digits).filter (· < UInt64.size)

end Numeral

end ScriptCore
