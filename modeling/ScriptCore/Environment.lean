import ScriptCore.Error
import ScriptCore.Heap.Collect

/-!
# Scopes

A scope maps names to variables and lies inside another scope, or in none. A name is resolved from a
scope outward: the nearest variable of that name is read, and assigned to if it may be.
-/

namespace ScriptCore

namespace Heap

def ownBinding? (h : Heap) (id : NodeId) (name : String) : Option Binding :=
  (h.scope? id).bind fun s => s.bindings.get? name

def bindingScope? (h : Heap) (id : NodeId) (name : String) : Option NodeId :=
  (h.scopes id).find? fun scope => (h.ownBinding? scope name).isSome

def readVariable (h : Heap) (id : NodeId) (name : String) : Option Value :=
  ((h.bindingScope? id name).bind fun scope => h.ownBinding? scope name).map Binding.value

def outerScope? (h : Heap) (id : NodeId) : Option NodeId := (h.scope? id).bind Scope.outer

def setBinding (h : Heap) (id : NodeId) (name : String) (binding : Binding) : Heap :=
  match h.scope? id with
  | some s =>
    let lost := (s.bindings.get? name).toList.flatMap fun old => Pending.ofValue old.value
    h.replaceNode id (.scope { s with bindings := s.bindings.insert name binding }) lost
  | none => h

end Heap

namespace HeapM

/-- A new scope inside another, or in none. The caller holds it. -/
def newScope (outer : Option NodeId) : HeapM NodeId := allocScope (.plain outer)

def define (id : NodeId) (name : String) (v : Value) (isMutable : Bool) : HeapM Unit :=
  modify fun h => h.setBinding id name ⟨v, isMutable⟩

def assignVariable (id : NodeId) (name : String) (v : Value) : HeapM (Except Error Unit) := do
  let h ← get
  match h.bindingScope? id name with
  | none => return .error (.undefinedVariable name)
  | some scope =>
    if (h.ownBinding? scope name).any Binding.isMutable then
      set (h.setBinding scope name ⟨v, true⟩)
      return .ok ()
    else return .error (.constAssignment name)

end HeapM

end ScriptCore
