import ScriptCore.Object.Elements
import ScriptCore.Object.Prototype
import ScriptCore.Text.Utf16

/-!
# Plain fields

A field is read along the prototype chain and written on the object itself. Two names are special:
`__proto__` stands for the prototype link, and `length` is answered by arrays and strings
themselves, where an array also takes it as its length when it is assigned.
-/

namespace ScriptCore

def protoKey : String := "__proto__"

namespace Object

/-- The field `length` of an array or a string, which no plain field can hide. -/
def ownLength? (o : Object) : Option Value :=
  match o.exotic with
  | .array elements => some (.ofNat elements.size)
  | .string text => some (.ofNat (Text.unitCount text))
  | .ordinary | .function _ => none

/-- What a link of a chain itself answers for a name. -/
def ownField? (o : Object) (key : String) : Option Value :=
  (if key = "length" then o.ownLength? else none).or (o.fields.get? key)

end Object

namespace Heap

/-- What the nearest link of the chain answers for a name other than `__proto__`. -/
def inheritedField (h : Heap) (id : NodeId) (key : String) : Value :=
  let answers := fun link => (h.object? link).bind fun o => o.ownField? key
  ((h.chain id).findSome? answers).getD .undefined

def lookupField (h : Heap) (id : NodeId) (key : String) : Value :=
  if key = protoKey then .ofOption (h.prototype? id) else h.inheritedField id key

def lookupFieldOf (h : Heap) (v : Value) (key : String) : Value :=
  match v with
  | .object id => h.lookupField id key
  | _ => .undefined

def keys (h : Heap) (id : NodeId) : List String :=
  ((h.object? id).map fun o => o.fields.keys).getD []

def ownPlainField? (h : Heap) (id : NodeId) (key : String) : Option Value :=
  (h.object? id).bind fun o => o.fields.get? key

end Heap

namespace HeapM

def insertField (id : NodeId) (key : String) (v : Value) : HeapM Unit := do
  let h ← get
  match h.object? id with
  | some o =>
    let lost := (o.fields.get? key).toList.flatMap Pending.ofValue
    set (h.replaceNode id (.object { o with fields := o.fields.insert key v }) lost)
  | none => return

/-- Assign to a field. A link that would close a cycle, a prototype that is no object, and a length
that is none are ignored. -/
def assignField (id : NodeId) (key : String) (v : Value) : HeapM Unit := do
  if key = protoKey then
    match v with
    | .object prototype => discard <| setPrototype id (some prototype)
    | .null => discard <| setPrototype id none
    | _ => return
  else if key = "length" && (← look fun h => h.isArray (.object id)) then
    discard <| assignLength id v
  else insertField id key v

def assignFieldOf (target : Value) (key : String) (v : Value) : HeapM Unit :=
  match target with
  | .object id => assignField id key v
  | _ => return

/-- Take a plain field off an object. The caller holds its value. -/
def removeField (id : NodeId) (key : String) : HeapM (Option Value) := do
  let h ← get
  match h.object? id with
  | none => return none
  | some o =>
    match o.fields.get? key with
    | none => return none
    | some v =>
      set ((h.addHandles v.references).setObject id { o with fields := o.fields.erase key })
      return some v

def setClassName (id : NodeId) (className : String) : HeapM Unit := modify fun h =>
  match h.object? id with
  | some o => h.setObject id { o with className := className }
  | none => h

end HeapM

end ScriptCore
