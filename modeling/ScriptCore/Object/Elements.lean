import ScriptCore.Heap.Collect

/-!
# Array elements

An array is a list of at most `2 ^ 30 - 1` elements. Writing past its end fills the gap with
undefined, a new length cuts it short or fills it up, and what would make it too long is refused and
changes nothing.
-/

namespace ScriptCore

namespace Elements

def maxLength : Nat := Nat.pow 2 30 - 1

def resize (elements : Array Value) (length : Nat) : Array Value :=
  elements.extract 0 length ++ Array.replicate (length - elements.size) .undefined

/-- The length that a value stands for when it is assigned to `length`: whole numbers and truth
values as they are, doubles cut to their whole part. -/
def lengthOf? : Value → Option Nat
  | .integer n => if 0 ≤ n.toInt then some n.toInt.toNat else none
  | .double d =>
    let greatest : Int := maxLength * Double.unitsPerOne
    if d.isFinite && 0 ≤ d.units && d.units ≤ greatest then some d.toNat else none
  | .boolean b => some b.toNat
  | .null => some 0
  | .undefined | .object _ => none

end Elements

namespace Heap

def elementsOf? (h : Heap) (id : NodeId) : Option (Array Value) :=
  (h.object? id).bind Object.elements?

def arrayLength? (h : Heap) (id : NodeId) : Option Nat := (h.elementsOf? id).map Array.size

def elementAt (h : Heap) (id : NodeId) (index : Nat) : Value :=
  ((h.elementsOf? id).bind (·[index]?)).getD .undefined

def setElements (h : Heap) (id : NodeId) (elements : Array Value) (lost : List Value) : Heap :=
  match h.object? id with
  | some o =>
    h.replaceNode id (.object { o with exotic := .array elements }) (lost.flatMap Pending.ofValue)
  | none => h

end Heap

namespace HeapM

def setLength (id : NodeId) (length : Nat) : HeapM Bool := do
  let h ← get
  match h.elementsOf? id with
  | none => return false
  | some elements =>
    if Elements.maxLength < length then return false
    let lost := (elements.extract length elements.size).toList
    set (h.setElements id (Elements.resize elements length) lost)
    return true

def setElement (id : NodeId) (index : Nat) (v : Value) : HeapM Bool := do
  let h ← get
  match h.elementsOf? id with
  | none => return false
  | some elements =>
    if index < elements.size then
      set (h.setElements id (elements.setIfInBounds index v) (elements[index]?).toList)
      return true
    else if Elements.maxLength ≤ index then return false
    else
      set (h.setElements id ((Elements.resize elements index).push v) [])
      return true

/-- Append a value to an array: the new length, none if there is no array or no room. -/
def push (id : NodeId) (v : Value) : HeapM (Option Nat) := do
  let h ← get
  match h.elementsOf? id with
  | none => return none
  | some elements =>
    if Elements.maxLength ≤ elements.size then return none
    set (h.setElements id (elements.push v) [])
    return some (elements.size + 1)

/-- Take the last element off an array. The caller holds it. -/
def pop (id : NodeId) : HeapM (Option Value) := do
  let h ← get
  match (h.elementsOf? id).bind fun elements => elements.back?.map (elements, ·) with
  | none => return none
  | some (elements, last) =>
    set ((h.addHandles last.references).setElements id elements.pop [])
    return some last

/-- Assign to the `length` of an array. Whether the value was a length. -/
def assignLength (id : NodeId) (v : Value) : HeapM Bool :=
  match Elements.lengthOf? v with
  | some length => setLength id length
  | none => return false

end HeapM

end ScriptCore
