import ScriptCore.Json.Basic
import ScriptCore.Json.Written
import ScriptCore.Number.Arithmetic

/-!
# What written JSON means

A number written without point and exponent is an integer if it fits 64 bits. Any other number is a
double: of its digits as many are taken as fit 64 bits, and the power of ten is applied by one
multiplication or division, so the last bit may be off. A number too large for a double is refused,
as are strings with half a surrogate pair and containers nested 128 deep.
-/

namespace ScriptCore

namespace WrittenNumber

/-- Add digits to a significand as long as it fits 64 bits, and count those added. -/
def absorb (significand : Nat) : List Char → Nat × Nat
  | [] => (significand, 0)
  | c :: rest =>
    let next := significand * 10 + (c.toNat - '0'.toNat)
    if next < UInt64.size then
      let (final, count) := absorb next rest
      (final, count + 1)
    else (significand, 0)

def powerOfTen (n : Nat) : Double := Decimal.nearest false ⟨1, n⟩

def maxPower : Int := 308

/-- A significand times a power of ten, none if that is infinite. Powers below the least one are
applied in two steps. -/
def scale (significand : Nat) (exponent : Int) : Option Double :=
  let start := Double.ofInt significand
  if significand = 0 then some start
  else if maxPower < exponent then none
  else if 0 ≤ exponent then
    let d := start.mul (powerOfTen exponent.toNat)
    if d.isInfinite then none else some d
  else if -maxPower ≤ exponent then some (start.div (powerOfTen (-exponent).toNat))
  else if -2 * maxPower ≤ exponent then
    some ((start.div (powerOfTen maxPower.toNat)).div (powerOfTen (-(exponent + maxPower)).toNat))
  else some (.zero false)

def exponentValue (n : WrittenNumber) : Int :=
  match n.exponent with
  | none => 0
  | some (negative, digits) =>
    let e : Int := Nat.ofDigitChars 10 digits 0
    if negative then -e else e

def toDouble? (n : WrittenNumber) : Option Double :=
  let fraction := n.fraction.getD []
  let (whole, taken) := absorb 0 n.whole
  let (significand, takenAfter) := absorb whole fraction
  let exponent : Int := (n.whole.length - taken : Nat) - (takenAfter : Int) + n.exponentValue
  (scale significand exponent).map fun d => if n.negative then d.neg else d

def isWhole (n : WrittenNumber) : Bool := n.fraction.isNone && n.exponent.isNone

/-- The integer that is written, minus zero being none. -/
def integer? (n : WrittenNumber) : Option Int :=
  let size := Nat.ofDigitChars 10 n.whole 0
  if !n.isWhole || (n.negative && size == 0) then none
  else some (if n.negative then -(size : Int) else size)

def toJson? (n : WrittenNumber) : Option Json :=
  match n.integer? with
  | some i =>
    if Int64.minValue.toInt ≤ i ∧ i ≤ Int64.maxValue.toInt then some (.integer (Int64.ofInt i))
    else n.toDouble?.map .double
  | none => n.toDouble?.map .double

/-- A count below a limit; nothing with a sign or a point is one. -/
def count? (n : WrittenNumber) (limit : Nat) : Option Nat :=
  if n.negative then none else (n.integer?.map Int.toNat).filter (· < limit)

end WrittenNumber

namespace Written

def maxNesting : Nat := 127

mutual

/-- What written JSON means, with room for so many more containers inside one another. -/
def toJson? (room : Nat) : Written → Option Json
  | .null => some .null
  | .boolean b => some (.boolean b)
  | .number n => n.toJson?
  | .string s => s.map .string
  | .array items => if room = 0 then none else (itemsToJson? (room - 1) items).map .array
  | .object entries =>
    if room = 0 then none
    else (entriesToJson? (room - 1) entries).map fun entries => .object (Json.sortEntries entries)

def itemsToJson? (room : Nat) : List Written → Option (List Json)
  | [] => some []
  | item :: items => do
    let item ← toJson? room item
    let items ← itemsToJson? room items
    return item :: items

def entriesToJson? (room : Nat) : List (Option String × Written) → Option (List (String × Json))
  | [] => some []
  | (key, value) :: entries => do
    let key ← key
    let value ← toJson? room value
    let entries ← entriesToJson? room entries
    return (key, value) :: entries

end

def text? : Written → Option String
  | .string s => s
  | _ => none

def boolean? : Written → Option Bool
  | .boolean b => some b
  | _ => none

def items : Written → Option (List Written)
  | .array items => some items
  | _ => none

/-- A count below a limit. -/
def count? (limit : Nat) : Written → Option Nat
  | .number n => n.count? limit
  | _ => none

def valuesAt (key : String) (entries : List (Option String × Written)) : List Written :=
  entries.filterMap fun (k, v) => if k = some key then some v else none

/-- The value under a name: `none` if the name is repeated, `some none` if it is missing. -/
def valueAt? (key : String) (entries : List (Option String × Written)) : Option (Option Written) :=
  match valuesAt key entries with
  | [] => some none
  | [v] => some (some v)
  | _ => none

end Written

namespace Json

def ofText (text : String) : Option Json :=
  (Written.ofText text).bind (Written.toJson? Written.maxNesting)

end Json

end ScriptCore
