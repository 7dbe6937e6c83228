import ScriptCore.Number.Double

/-!
# Arithmetic on doubles

Each operation is exact on units and rounded once to the nearest double. Infinities, zeros and `nan`
follow the usual rules; the sign of a zero result is the only thing that units do not show.
-/

namespace ScriptCore

namespace Double

def neg : Double → Double
  | .nan => .nan
  | .ranked negative rank => .ranked (!negative) rank

/-- A sum of opposite numbers is positive zero; only two negative zeros add up to a negative one. -/
def add (x y : Double) : Double :=
  if x.isNaN || y.isNaN then .nan
  else if x.isInfinite then
    if y.isInfinite && x.isNegative != y.isNegative then .nan else x
  else if y.isInfinite then y
  else
    let sum := x.units + y.units
    if sum = 0 then zero (x.isNegative && y.isNegative)
    else nearest (decide (sum < 0)) sum.natAbs 1

def sub (x y : Double) : Double := x.add y.neg

def mul (x y : Double) : Double :=
  let negative := x.isNegative != y.isNegative
  if x.isNaN || y.isNaN then .nan
  else if x.isInfinite || y.isInfinite then
    if x.isZero || y.isZero then .nan else infinity negative
  else nearest negative (x.units.natAbs * y.units.natAbs) unitsPerOne

def div (x y : Double) : Double :=
  let negative := x.isNegative != y.isNegative
  if x.isNaN || y.isNaN then .nan
  else if x.isInfinite then
    if y.isInfinite then .nan else infinity negative
  else if y.isInfinite then zero negative
  else if y.isZero then
    if x.isZero then .nan else infinity negative
  else nearest negative (x.units.natAbs * unitsPerOne) y.units.natAbs

/-- The remainder of division toward zero. It is exact and has the sign of the dividend. -/
def rem (x y : Double) : Double :=
  if x.isNaN || y.isNaN || x.isInfinite || y.isZero then .nan
  else if y.isInfinite then x
  else nearest x.isNegative (x.units.natAbs % y.units.natAbs) 1

/-- The machine's own power function. -/
def pow (x y : Double) : Double :=
  let float (d : Double) : Float := Float.ofBits (UInt64.ofNat d.toBits)
  ofBits (Float.pow (float x) (float y)).toBits.toNat

/-- Toward zero, and to the nearest end of the range when out of it; `nan` gives zero. -/
def toInt64 (x : Double) : Int64 := Int64.ofIntClamp (x.units.tdiv unitsPerOne)

def toNat (x : Double) : Nat := x.units.toNat / unitsPerOne

end Double

end ScriptCore
