import ScriptCore.Heap.Collect

/-!
# Accessors

Getters and setters stand beside the plain fields of an object, in tables of their own, and are
found along the prototype chain: the nearest one counts.
-/

namespace ScriptCore

namespace Heap

def ownGetter? (h : Heap) (id : NodeId) (key : String) : Option NodeId :=
  (h.object? id).bind fun o => o.getters.get? key

def ownSetter? (h : Heap) (id : NodeId) (key : String) : Option NodeId :=
  (h.object? id).bind fun o => o.setters.get? key

def findGetter? (h : Heap) (id : NodeId) (key : String) : Option NodeId :=
  (h.chain id).findSome? fun link => h.ownGetter? link key

def findSetter? (h : Heap) (id : NodeId) (key : String) : Option NodeId :=
  (h.chain id).findSome? fun link => h.ownSetter? link key

end Heap

namespace HeapM

def addGetter (id : NodeId) (key : String) (getter : NodeId) : HeapM Unit := do
  let h ← get
  match h.object? id with
  | some o =>
    let lost := (o.getters.get? key).toList.map Pending.reference
    set (h.replaceNode id (.object { o with getters := o.getters.insert key getter }) lost)
  | none => return

def addSetter (id : NodeId) (key : String) (setter : NodeId) : HeapM Unit := do
  let h ← get
  match h.object? id with
  | some o =>
    let lost := (o.setters.get? key).toList.map Pending.reference
    set (h.replaceNode id (.object { o with setters := o.setters.insert key setter }) lost)
  | none => return

end HeapM

end ScriptCore
