import ScriptCore.Display
import ScriptCore.Object.Create

/-!
# Operators

Arithmetic and bitwise operators never fail. Undefined on either side makes the result undefined.
Integers wrap around at 64 bits, division and powers always work on doubles, and operands that are
no numbers give `nan`, or zero where bits are asked for. Addition joins texts when a string is
there, or when one side is no number.
-/

namespace ScriptCore

inductive BinaryOp where
  | add | sub | mul | div | rem | pow
  | and | or | xor | shl | shr | ushr
deriving DecidableEq

inductive UnaryOp where
  | plus | minus | bitNot
deriving DecidableEq

namespace Operator

/-- What an operator yields: a scalar, or a text that has yet to become a string. -/
inductive Outcome where
  | value (v : Value)
  | text (s : String)
deriving DecidableEq

/-- The quotient's remainder on integers, with the sign of the dividend; none by zero. -/
def remainder (a b : Int64) : Value := if b = 0 then .double .nan else .integer (a % b)

/-- Bits of `a` moved down with zeros filled in; only the low six bits of `b` count. -/
def shiftRightUnsigned (a b : Int64) : Int64 :=
  (a.toUInt64 >>> b.toUInt64).toInt64

/-- Two integers by one operation, other numbers as doubles by another. -/
def arithmetic (onIntegers : Int64 → Int64 → Value) (onDoubles : Double → Double → Double)
    (a b : Value) : Value :=
  match a.numeric?, b.numeric? with
  | some (.integer m), some (.integer n) => onIntegers m n
  | some x, some y => .double (onDoubles x.toDouble y.toDouble)
  | _, _ => .double .nan

def floating (op : Double → Double → Double) (a b : Value) : Value :=
  match a.numeric?, b.numeric? with
  | some x, some y => .double (op x.toDouble y.toDouble)
  | _, _ => .double .nan

def bitwise (op : Int64 → Int64 → Int64) (a b : Value) : Value :=
  match a.numeric?, b.numeric? with
  | some x, some y => .integer (op x.toInt64 y.toInt64)
  | _, _ => .integer 0

/-- The binary operators other than addition, on operands that are not undefined. -/
def onNumbers (op : BinaryOp) (a b : Value) : Value :=
  match op with
  | .add => arithmetic (fun m n => .integer (m + n)) .add a b
  | .sub => arithmetic (fun m n => .integer (m - n)) .sub a b
  | .mul => arithmetic (fun m n => .integer (m * n)) .mul a b
  | .rem => arithmetic remainder .rem a b
  | .div => floating .div a b
  | .pow => floating .pow a b
  | .and => bitwise (· &&& ·) a b
  | .or => bitwise (· ||| ·) a b
  | .xor => bitwise (· ^^^ ·) a b
  | .shl => bitwise (· <<< ·) a b
  | .shr => bitwise (· >>> ·) a b
  | .ushr => bitwise shiftRightUnsigned a b

def unary (op : UnaryOp) (a : Value) : Value :=
  match op, a.numeric? with
  | .plus, some (.integer n) => .integer n
  | .plus, some (.double d) => .double d
  | .minus, some (.integer n) => .integer (-n)
  | .minus, some (.double d) => .double d.neg
  | .bitNot, some n => .integer (~~~n.toInt64)
  | .bitNot, none => .undefined
  | _, none => .double .nan

end Operator

namespace Heap

/-- Addition joins texts if one side is a string or if one side is no number. -/
def joinsText (h : Heap) (a b : Value) : Bool :=
  h.isString a || h.isString b || a.numeric?.isNone || b.numeric?.isNone

def binary (h : Heap) (op : BinaryOp) (a b : Value) : Operator.Outcome :=
  if a = .undefined ∨ b = .undefined then .value .undefined
  else if op = .add ∧ h.joinsText a b then .text (h.toText a ++ h.toText b)
  else .value (Operator.onNumbers op a b)

end Heap

namespace HeapM

/-- A binary operator, with a text made into a string that the caller holds. -/
def binary (op : BinaryOp) (a b : Value) : HeapM Value := do
  match (← get).binary op a b with
  | .value v => return v
  | .text s => newText s

end HeapM

end ScriptCore
