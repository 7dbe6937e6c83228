import ScriptCore.Error
import ScriptCore.Number.Numeral

/-!
# Conversions

Values as host types, in two ways. A lenient conversion never fails and falls back to something
neutral. A checked one succeeds only where the value has the type's kind, and then gives what the
lenient one gives.
-/

namespace ScriptCore

/-- The host types that a value can be converted to. -/
inductive Target where
  | any
  | boolean
  | double
  | int64
  | int32
  | uint32
  | size
  | text
  /-- an object, with no neutral value to fall back to -/
  | object
  | optionalObject
  | list (of : Target)
deriving DecidableEq

/-- A value as a host type. -/
inductive Converted where
  | any (v : Value)
  | boolean (b : Bool)
  | double (d : Double)
  | integer (n : Int)
  | text (s : String)
  | object (id : Option NodeId)
  | list (items : List Converted)

namespace Value

/-- Truth: undefined, null, zero, `nan` and false are false; strings are seen to by the heap. -/
def isTrue : Value → Bool
  | .undefined | .null => false
  | .boolean b => b
  | .integer n => n ≠ 0
  | .double d => !d.isZero && !d.isNaN
  | .object _ => true

end Value

namespace Heap

/-- Truth of any value: of all objects only the empty string is false. -/
def truth (h : Heap) (v : Value) : Bool :=
  match h.text? v with
  | some text => !text.isEmpty
  | none => v.isTrue

/-- A value as a number: strings by the number they stand for, undefined and other objects `nan`. -/
def toNumber (h : Heap) (v : Value) : Double :=
  match h.text? v with
  | some text => Numeral.ofText text
  | none => (v.numeric?.map Numeric.toDouble).getD .nan

/-- A value as an integer: cut to its whole part, out of range to the nearer end, `nan` to zero. -/
def toInteger (h : Heap) (v : Value) : Int64 :=
  match v with
  | .integer n => n
  | v => (h.toNumber v).toInt64

/-- Lenient conversion. Narrower integers keep the low bits, and a size below zero is zero. -/
def convert (h : Heap) (target : Target) (v : Value) : Converted :=
  match target with
  | .any => .any v
  | .boolean => .boolean (h.truth v)
  | .double => .double (h.toNumber v)
  | .int64 => .integer (h.toInteger v).toInt
  | .int32 => .integer (h.toInteger v).toInt32.toInt
  | .uint32 => .integer ((h.toInteger v).toUInt64.toUInt32.toNat)
  | .size => .integer (max 0 (h.toInteger v).toInt)
  | .text => .text (h.toText v)
  | .object | .optionalObject => .object v.id?
  | .list of => .list (((h.elements? v).map Array.toList).getD [] |>.map fun e => h.convert of e)

def checkedDouble (v : Value) (target : String) : Except Error Double :=
  match v.numeric? with
  | some n => .ok n.toDouble
  | none => .error (.invalidConversion v target)

def checkedInteger (v : Value) (target : String) : Except Error Int :=
  match v.numeric? with
  | some n => .ok n.toInt64.toInt
  | none => .error (.invalidConversion v target)

def checkedWithin (v : Value) (target : String) (least greatest : Int) :
    Except Error Converted := do
  let n ← checkedInteger v target
  if least ≤ n ∧ n ≤ greatest then return .integer n
  else .error (.invalidConversion v target)

def check (h : Heap) (target : Target) (v : Value) : Except Error Converted :=
  match target with
  | .any => .ok (.any v)
  | .boolean => .ok (.boolean (h.truth v))
  | .double => (checkedDouble v "f64").map .double
  | .int64 => (checkedInteger v "i64").map .integer
  | .int32 => checkedWithin v "i32" Int32.minValue.toInt Int32.maxValue.toInt
  | .uint32 => checkedWithin v "u32" 0 (UInt32.size - 1 : Nat)
  | .size => checkedWithin v "usize" 0 (UInt64.size - 1 : Nat)
  | .text => .ok (.text (h.toText v))
  | .object =>
    match v.id? with
    | some id => .ok (.object (some id))
    | none => .error (.invalidConversion v "object")
  | .optionalObject =>
    match v with
    | .null | .undefined => .ok (.object none)
    | .object id => .ok (.object (some id))
    | other => .error (.invalidConversion other "object or null")
  | .list of =>
    match h.elements? v with
    | some elements => (elements.toList.mapM fun e => h.check of e).map .list
    | none => .error (.invalidConversion v "array")

end Heap

end ScriptCore
