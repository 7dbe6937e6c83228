import ScriptCore.Number.Arithmetic

/-!
# Values

A script value is a scalar or a reference to a node of the heap. Strings, arrays and functions are
objects of the heap too, told apart by the object and not by the value.
-/

namespace ScriptCore

/-- The name of a node. Names are given out in order and never used again. -/
abbrev NodeId := Nat

inductive Value where
  | undefined
  | null
  | boolean (b : Bool)
  | integer (n : Int64)
  | double (d : Double)
  | object (id : NodeId)
deriving DecidableEq

/-- What a scalar counts as in arithmetic and comparison: null and booleans are integers. -/
inductive Numeric where
  | integer (n : Int64)
  | double (d : Double)
deriving DecidableEq

namespace Numeric

def toDouble : Numeric → Double
  | .integer n => .ofInt n.toInt
  | .double d => d

/-- Toward zero, out of range to the nearer end, and `nan` to zero. -/
def toInt64 : Numeric → Int64
  | .integer n => n
  | .double d => d.toInt64

/-- Integers compare exactly; with a double on either side, both are compared as doubles. -/
def compare? : Numeric → Numeric → Option Ordering
  | .integer m, .integer n => some (compare m.toInt n.toInt)
  | a, b => a.toDouble.compare? b.toDouble

end Numeric

namespace Value

instance : Inhabited Value := ⟨.undefined⟩

def id? : Value → Option NodeId
  | .object id => some id
  | _ => none

def references (v : Value) : List NodeId := v.id?.toList

def refersTo (v : Value) (id : NodeId) : Bool :=
  match v with
  | .object other => other == id
  | _ => false

theorem refersTo_eq_contains (v : Value) (id : NodeId) :
    v.refersTo id = v.references.contains id := by
  cases v <;> simp [refersTo, references, id?, eq_comm, Bool.beq_eq_decide_eq]

/-- An optional object as a value, null standing for none. -/
def ofOption : Option NodeId → Value
  | some id => .object id
  | none => .null

/-- A count as a value: an integer if it fits, else a double. -/
def ofNat (n : Nat) : Value :=
  if n < Nat.pow 2 63 then .integer (Int64.ofNat n) else .double (.ofInt n)

def numeric? : Value → Option Numeric
  | .null => some (.integer 0)
  | .boolean b => some (.integer (if b then 1 else 0))
  | .integer n => some (.integer n)
  | .double d => some (.double d)
  | .undefined | .object _ => none

/-- The same kind of scalar with the same content, or the same object. -/
def strictEquals : Value → Value → Bool
  | .undefined, .undefined | .null, .null => true
  | .boolean a, .boolean b => a == b
  | .integer a, .integer b => a == b
  | .double a, .double b => a.equals b
  | .object a, .object b => a == b
  | _, _ => false

/-- Equality of map keys: strict equality, except that `nan` is equal to itself. -/
def sameKey (a b : Value) : Bool :=
  (a == .double .nan && b == .double .nan) || a.strictEquals b

end Value

end ScriptCore
