/-!
# Doubles

A double is a sign and a **rank**: the place of its magnitude among the non-negative doubles, with
zero at rank 0, the least positive double at rank 1 and infinity at the top. The order of doubles is
the order of ranks, and the rank is also the bit pattern without its sign.

Every finite double is a whole number of **units**, where the unit is the least positive double,
`2 ^ (-1074)`. All arithmetic is done on units, exactly, and rounded once by `Double.nearest`.
-/

namespace ScriptCore

/-- How many ranks a block has: the doubles of one binary exponent, which share one step. -/
def blockSize : Nat := Nat.pow 2 52

/-- The rank of infinity, one above the rank of the largest finite double. -/
def topRank : Nat := 2047 * blockSize

/-- A 64-bit floating-point number. All patterns that are not a number are one value, `nan`. -/
inductive Double where
  | nan
  | ranked (negative : Bool) (rank : Fin (topRank + 1))
deriving DecidableEq

namespace Double

instance : Inhabited Double := ⟨.nan⟩

/-- How many units one is: `2 ^ 1074` of the least positive doubles. -/
def unitsPerOne : Nat := Nat.pow 2 1074

/-! ## Ranks, bits and units -/

/-- A rank as a rank, with everything past infinity taken as infinity. -/
def clampRank (rank : Nat) : Fin (topRank + 1) :=
  ⟨min rank topRank, Nat.lt_succ_of_le (Nat.min_le_right rank topRank)⟩

def zero (negative : Bool) : Double := .ranked negative (clampRank 0)

def infinity (negative : Bool) : Double := .ranked negative (clampRank topRank)

def signBit : Nat := Nat.pow 2 63

/-- The bit pattern, with the one pattern `7ff8000000000000` for `nan`. -/
def toBits : Double → Nat
  | .nan => topRank + blockSize / 2
  | .ranked negative rank => (if negative then signBit else 0) + rank.val

def ofBits (bits : Nat) : Double :=
  let rank := bits % signBit
  if rank ≤ topRank then .ranked (bits / signBit % 2 == 1) (clampRank rank) else .nan

/-- The magnitude at a rank, in units. The first block has a step of one unit, and each block after
the second has a step twice as wide as the block before it. -/
def unitsOfRank (rank : Nat) : Nat :=
  let block := rank / blockSize
  if block = 0 then rank else (blockSize + rank % blockSize) * Nat.pow 2 (block - 1)

/-- The value in units, with its sign; infinity counts as the next step after the largest double. -/
def units : Double → Int
  | .nan => 0
  | .ranked negative rank =>
    let size : Int := unitsOfRank rank.val
    if negative then -size else size

/-- The rank nearest to the magnitude `num / den` units, a tie going to the even neighbour.
Fifty-three binary digits are kept, fewer below the smallest normal number, where the step is one
unit. -/
def nearestRank (num den : Nat) : Nat :=
  let dropped := (num / den).log2 - 52
  let step := den * Nat.pow 2 dropped
  let kept := num / step
  let rest := num % step
  let up := step < 2 * rest ∨ (2 * rest = step ∧ kept % 2 = 1)
  dropped * blockSize + kept + (if up then 1 else 0)

def nearest (negative : Bool) (num den : Nat) : Double :=
  .ranked negative (clampRank (nearestRank num den))

def ofInt (n : Int) : Double := nearest (decide (n < 0)) (n.natAbs * unitsPerOne) 1

/-! ## Classes -/

def isNaN : Double → Bool
  | .nan => true
  | .ranked _ _ => false

def isInfinite : Double → Bool
  | .nan => false
  | .ranked _ rank => rank.val == topRank

def isFinite : Double → Bool
  | .nan => false
  | .ranked _ rank => rank.val < topRank

def isZero : Double → Bool
  | .nan => false
  | .ranked _ rank => rank.val == 0

def isNegative : Double → Bool
  | .nan => false
  | .ranked negative _ => negative

/-! ## Order -/

/-- The place of a number on the line of all doubles; both zeros are at place 0. -/
def place? : Double → Option Int
  | .nan => none
  | .ranked negative rank => some (if negative then -(rank.val : Int) else (rank.val : Int))

/-- The order of two numbers, none if one of them is not a number. -/
def compare? (x y : Double) : Option Ordering :=
  match x.place?, y.place? with
  | some a, some b => some (compare a b)
  | _, _ => none

/-- Numeric equality: the zeros are equal, and `nan` equals nothing. -/
def equals (x y : Double) : Bool := x.compare? y == some .eq

end Double

end ScriptCore
