import ScriptCore.Heap.Collect

/-!
# Host payloads

A host value can be attached to an object. It is let go when another one takes its place, when it is
cleared, and with the object.
-/

namespace ScriptCore

namespace Heap

def payload? (h : Heap) (id : NodeId) : Option Payload := (h.object? id).bind Object.payload

end Heap

namespace HeapM

/-- Attach a payload; the one before it is let go while the object counts as being changed. -/
def setPayload (id : NodeId) (p : Payload) : HeapM Unit := do
  let h ← get
  match h.object? id with
  | some o =>
    let lost := o.payload.toList.map Pending.payload
    set (h.replaceNode id (.object { o with payload := some p }) lost)
  | none => return

def clearPayload (id : NodeId) : HeapM Bool := do
  let h ← get
  match h.object? id with
  | none => return false
  | some o =>
    match o.payload with
    | none => return false
    | some p =>
      let detached := (h.holdPending [.payload p]).setObject id { o with payload := none }
      set (detached.letGo [.payload p])
      return true

end HeapM

end ScriptCore
