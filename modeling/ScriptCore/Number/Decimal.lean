import ScriptCore.Number.Double

/-!
# Decimals

A decimal is a coefficient and a power of ten. `Decimal.nearest` reads one as a double, correctly
rounded; `Double.shortest` goes the other way, to the fewest digits that read back, and of those the
decimal nearest to the number. `Decimal.text` writes a decimal without an exponent.
-/

namespace ScriptCore

/-- The number `coefficient * 10 ^ exponent`. -/
structure Decimal where
  coefficient : Nat
  exponent : Int
deriving DecidableEq

namespace Decimal

/-- The rank nearest to a decimal. A coefficient of `b` bits times a power of ten past `400`, or
below `-(400 + b)`, is far outside the range of doubles, so its power is not worked out. -/
def nearestRank (d : Decimal) : Nat :=
  if d.coefficient = 0 then 0
  else if 0 ≤ d.exponent then
    if 400 < d.exponent then topRank
    else Double.nearestRank (d.coefficient * Nat.pow 10 d.exponent.toNat * Double.unitsPerOne) 1
  else if d.exponent < -(400 + d.coefficient.log2 : Int) then 0
  else Double.nearestRank (d.coefficient * Double.unitsPerOne) (Nat.pow 10 (-d.exponent).toNat)

def nearest (negative : Bool) (d : Decimal) : Double :=
  .ranked negative (Double.clampRank d.nearestRank)

def paddedDigits (width n : Nat) : List Char :=
  let digits := Nat.toDigits 10 n
  List.replicate (width - digits.length) '0' ++ digits

def fractionDigits (width n : Nat) : List Char :=
  ((paddedDigits width n).reverse.dropWhile (· == '0')).reverse

/-- The characters of a decimal: a whole part, and a point with a fraction if there is one. -/
def chars (d : Decimal) : List Char :=
  if 0 ≤ d.exponent then
    Nat.toDigits 10 (d.coefficient * Nat.pow 10 d.exponent.toNat)
  else
    let width := (-d.exponent).toNat
    let unit := Nat.pow 10 width
    let whole := Nat.toDigits 10 (d.coefficient / unit)
    match fractionDigits width (d.coefficient % unit) with
    | [] => whole
    | fraction => whole ++ '.' :: fraction

def text (d : Decimal) : String := String.ofList d.chars

end Decimal

namespace Double

/-- How many times `10 ^ (-1074)` one unit is. -/
def finePerUnit : Nat := Nat.pow 5 1074

/-- A magnitude in units as a whole number of `10 ^ (-1074)`. -/
def fineDigits (units : Nat) : Nat := units * finePerUnit

/-- One of the two neighbours of `fine` on the grid of a step, if it reads back: of two that do, the
nearer one, and the upper one in the middle. -/
def readingNeighbour (reads : Nat → Bool) (fine step : Nat) : Option Nat :=
  let lower := fine / step
  match reads lower, reads (lower + 1) with
  | true, true => some (if 2 * (fine % step) < step then lower else lower + 1)
  | true, false => some lower
  | false, true => some (lower + 1)
  | false, false => none

/-- A neighbour of `fine` on the grid of step `10 ^ coarse` that reads back as the double at `rank`. -/
def gridNeighbour (rank fine coarse : Nat) : Option Decimal :=
  let step := Nat.pow 10 coarse
  let reads (c : Nat) : Bool := nearestRank (c * step) finePerUnit == rank
  (readingNeighbour reads fine step).map fun c => ⟨c, (coarse : Int) - 1074⟩

/-- The decimal with the fewest digits that reads back as the double at `rank`, and of those the one
nearest to it. Grids are tried from coarse to fine; seventeen digits are enough for every double,
and the exact value stands behind them. -/
def shortestOfRank (rank : Nat) : Decimal :=
  let fine := fineDigits (unitsOfRank rank)
  let length := (Nat.toDigits 10 fine).length
  let attempts := (List.range 17).map fun digits => gridNeighbour rank fine (length - (digits + 1))
  (attempts.findSome? id).getD ⟨fine, -1074⟩

/-- The text of a double: the shortest decimal that reads back, without an exponent; both zeros are
written as `0`. -/
def text : Double → String
  | .nan => "NaN"
  | .ranked negative rank =>
    let sign := if negative then "-" else ""
    if rank.val = 0 then "0"
    else if rank.val = topRank then sign ++ "Infinity"
    else sign ++ (shortestOfRank rank.val).text

end Double

end ScriptCore
