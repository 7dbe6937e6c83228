import ScriptCore.Error
import ScriptCore.Json.Basic
import ScriptCore.Object.Create

/-!
# Script values and JSON

A JSON value becomes fresh objects: integers stay integers and every name becomes a plain field,
whatever it is. The other way, undefined and functions are left out of objects and are null
elsewhere, and so are numbers that are not finite. A container inside itself is an error, and so is
one enclosed by 128 others; the depth is checked first.
-/

namespace ScriptCore

namespace Json

def maxDepth : Nat := 128

end Json

namespace HeapM

mutual

def ofJson : Json → HeapM Value
  | .null => return .null
  | .boolean b => return .boolean b
  | .integer n => return .integer n
  | .double d => return .double d
  | .string s => newText s
  | .array items => do
    let items ← ofJsonItems items
    let id ← newArray items.toArray
    handOver items
    return .object id
  | .object entries => do
    let entries ← ofJsonEntries entries
    let id ← newObject
    modify fun h =>
      match h.object? id with
      | some o => h.setObject id { o with fields := .ofList entries }
      | none => h
    handOver (entries.map Prod.snd)
    return .object id

def ofJsonItems : List Json → HeapM (List Value)
  | [] => return []
  | item :: items => do
    let v ← ofJson item
    return v :: (← ofJsonItems items)

def ofJsonEntries : List (String × Json) → HeapM (List (String × Value))
  | [] => return []
  | (key, value) :: entries => do
    let v ← ofJson value
    return (key, v) :: (← ofJsonEntries entries)

end

end HeapM

namespace Heap

def isOmitted (h : Heap) (v : Value) : Bool := v == .undefined || h.isFunction v

/-- A value as JSON inside the containers `enclosing`, with room for so many more. -/
def toJsonWithin (h : Heap) (room : Nat) (enclosing : List NodeId) (v : Value) :
    Except Error Json :=
  match v with
  | .undefined | .null => .ok .null
  | .boolean b => .ok (.boolean b)
  | .integer n => .ok (.integer n)
  | .double d => .ok (if d.isFinite then .double d else .null)
  | .object id =>
    match h.object? id with
    | none => .ok .null
    | some o =>
      match o.exotic, room with
      | .string text, _ => .ok (.string text)
      | .function _, _ => .ok .null
      | _, 0 => .error (.nestingTooDeep Json.maxDepth)
      | .array elements, room + 1 =>
        if enclosing.contains id then .error .cyclicStructure
        else (elements.toList.mapM fun e => h.toJsonWithin room (id :: enclosing) e).map .array
      | .ordinary, room + 1 =>
        if enclosing.contains id then .error .cyclicStructure
        else
          let kept := o.fields.entries.filter fun (_, e) => !h.isOmitted e
          let entries := kept.mapM fun (key, e) =>
            (h.toJsonWithin room (id :: enclosing) e).map fun json => (key, json)
          entries.map fun entries => .object (Json.sortEntries entries)

def toJson (h : Heap) (v : Value) : Except Error Json := h.toJsonWithin Json.maxDepth [] v

end Heap

end ScriptCore
