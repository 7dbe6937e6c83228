import ScriptCore.Object.Create
import ScriptCore.Error

/-!
# Prototype links

A link that would close a cycle is refused, so that every chain ends.
-/

namespace ScriptCore

namespace Heap

def prototype? (h : Heap) (id : NodeId) : Option NodeId := (h.object? id).bind Object.prototype

/-- Whether linking `id` to `prototype` would close a cycle: `id` is on the chain to be linked. -/
def closesCycle (h : Heap) (id : NodeId) (prototype : Option NodeId) : Bool :=
  (h.chainFrom h.cells.size prototype).contains id

/-- Whether some proper ancestor of an object has an own field `constructor` holding `callable`. -/
def isInstanceOf (h : Heap) (id callable : NodeId) : Bool :=
  (h.chain id).tail.any fun link =>
    ((h.object? link).bind fun o => o.fields.get? "constructor") == some (.object callable)

/-- `instanceof` on values: only objects are instances, and only of functions. -/
def isInstance (h : Heap) (v callable : Value) : Bool :=
  match v, callable with
  | .object id, .object f => h.isFunction callable && h.isInstanceOf id f
  | _, _ => false

end Heap

namespace HeapM

def setPrototype (id : NodeId) (prototype : Option NodeId) : HeapM (Except Error Unit) := do
  let h ← get
  if h.closesCycle id prototype then return .error .prototypeCycle
  match h.object? id with
  | some o =>
    let lost := o.prototype.toList.map Pending.reference
    set (h.replaceNode id (.object { o with prototype := prototype }) lost)
  | none => pure ()
  return .ok ()

end HeapM

end ScriptCore
