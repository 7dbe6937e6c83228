import ScriptCore.Callable
import ScriptCore.Fields

/-!
# Nodes

The things on the heap: objects and scopes. A node holds **strong references** to other nodes. Most
of them the collector can trace. Those in a host payload and those that a host closure captured are
hidden from it.
-/

namespace ScriptCore

inductive ObjectKind where
  | ordinary
  | array
  | string
  | function
deriving DecidableEq

/-- What makes an object more than its fields. -/
inductive Exotic where
  | ordinary
  | array (elements : Array Value)
  | string (text : String)
  | function (callable : Callable)

/-- A host value attached to an object. -/
inductive Payload where
  | integer (n : Int64)
  | text (s : String)
  | value (v : Value)
  /-- reports its release, and collects garbage then if it is told to -/
  | watch (name : String) (collects : Bool)
deriving DecidableEq

structure Object where
  className : String
  prototype : Option NodeId
  fields : Fields Value
  getters : Fields NodeId
  setters : Fields NodeId
  payload : Option Payload
  exotic : Exotic

/-- A variable of a scope. -/
structure Binding where
  value : Value
  isMutable : Bool
deriving DecidableEq

/-- The variables of one scope and the scope around it. -/
structure Scope where
  bindings : Fields Binding
  outer : Option NodeId

inductive Node where
  | object (o : Object)
  | scope (s : Scope)

/-- Something that is about to be let go: a reference, or a host payload. -/
inductive Pending where
  | reference (id : NodeId)
  | payload (p : Payload)

namespace Payload

/-- The references that a payload holds. The collector cannot see them. -/
def references : Payload → List NodeId
  | .value v => v.references
  | .integer _ | .text _ | .watch .. => []

end Payload

namespace Exotic

def kind : Exotic → ObjectKind
  | .ordinary => .ordinary
  | .array _ => .array
  | .string _ => .string
  | .function _ => .function

/-- Whether the elements or the callable of an object refer to a node. -/
def refersTo (e : Exotic) (id : NodeId) : Bool :=
  match e with
  | .ordinary | .string _ => false
  | .array elements => elements.any fun v => v.refersTo id
  | .function f =>
    (f.boundThis.any fun v => v.refersTo id) || f.body.tracedReferences.contains id ||
      f.body.hiddenReferences.contains id

end Exotic

namespace Object

def plain (className : String) (prototype : Option NodeId) : Object :=
  ⟨className, prototype, .empty, .empty, .empty, none, .ordinary⟩

def kind (o : Object) : ObjectKind := o.exotic.kind

def callable? (o : Object) : Option Callable :=
  match o.exotic with
  | .function f => some f
  | _ => none

def elements? (o : Object) : Option (Array Value) :=
  match o.exotic with
  | .array elements => some elements
  | _ => none

def text? (o : Object) : Option String :=
  match o.exotic with
  | .string text => some text
  | _ => none

/-- The references held by the array elements, or by the callable. -/
def exoticReferences (o : Object) : List NodeId :=
  match o.exotic with
  | .ordinary | .string _ => []
  | .array elements => elements.toList.flatMap Value.references
  | .function f => (f.boundThis.toList.flatMap Value.references) ++ f.body.tracedReferences

def tracedReferences (o : Object) : List NodeId :=
  o.prototype.toList ++ o.fields.values.flatMap Value.references ++ o.getters.values ++
    o.setters.values ++ o.exoticReferences

def capturedReferences (o : Object) : List NodeId :=
  match o.exotic with
  | .function f => f.body.hiddenReferences
  | _ => []

def hiddenReferences (o : Object) : List NodeId :=
  (o.payload.toList.flatMap Payload.references) ++ o.capturedReferences

def refersTo (o : Object) (id : NodeId) : Bool :=
  (o.prototype.any fun other => other == id) ||
    (o.fields.entries.any fun entry => entry.2.refersTo id) ||
    (o.getters.entries.any fun entry => entry.2 == id) ||
    (o.setters.entries.any fun entry => entry.2 == id) ||
    (o.payload.any fun p => p.references.contains id) || o.exotic.refersTo id

/-- Everything an object lets go of when it dies, in this order: prototype, fields, accessors,
payload, and then elements or callable. -/
def contents (o : Object) : List Pending :=
  (o.prototype.toList ++ o.fields.values.flatMap Value.references ++ o.getters.values ++
      o.setters.values).map .reference ++
    o.payload.toList.map .payload ++
    (o.exoticReferences ++ o.capturedReferences).map .reference

end Object

namespace Scope

def plain (outer : Option NodeId) : Scope := ⟨.empty, outer⟩

/-- The references of a scope: the values of its variables, and the scope around it. -/
def references (s : Scope) : List NodeId :=
  (s.bindings.values.flatMap fun binding => binding.value.references) ++ s.outer.toList

def refersTo (s : Scope) (id : NodeId) : Bool :=
  (s.bindings.entries.any fun entry => entry.2.value.refersTo id) ||
    (s.outer.any fun other => other == id)

end Scope

namespace Node

def tracedReferences : Node → List NodeId
  | .object o => o.tracedReferences
  | .scope s => s.references

def hiddenReferences : Node → List NodeId
  | .object o => o.hiddenReferences
  | .scope _ => []

def references (node : Node) : List NodeId := node.tracedReferences ++ node.hiddenReferences

/-- Whether a node holds a reference to another. It is asked of every node in turn, so no list is
made for it. -/
def refersTo (node : Node) (id : NodeId) : Bool :=
  match node with
  | .object o => o.refersTo id
  | .scope s => s.refersTo id

theorem refersTo_eq_true_iff (node : Node) (id : NodeId) :
    node.refersTo id = true ↔ id ∈ node.references := by
  have hv (v : Value) : v.refersTo id = true ↔ id ∈ v.references := by
    rw [Value.refersTo_eq_contains, List.contains_iff_mem]
  cases node with
  | scope s =>
    simp [refersTo, Scope.refersTo, references, tracedReferences, hiddenReferences,
      Scope.references, Fields.values, Option.any_eq_true, hv]
    grind
  | object o =>
    rcases o with ⟨className, prototype, fields, getters, setters, payload, exotic⟩
    cases exotic <;>
      simp [refersTo, Object.refersTo, Exotic.refersTo, references, tracedReferences,
        hiddenReferences, Object.tracedReferences, Object.hiddenReferences,
        Object.exoticReferences, Object.capturedReferences, Fields.values, Option.any_eq_true,
        Array.any_eq_true', hv, -Array.any_eq_true]
    all_goals grind

def contents : Node → List Pending
  | .object o => o.contents
  | .scope s => s.references.map .reference

def emptied : Node → Node
  | .object _ => .object (.plain "Object" none)
  | .scope _ => .scope (.plain none)

end Node

namespace Pending

/-- The references in something pending, each counted as held from outside until it is let go. -/
def references : Pending → List NodeId
  | .reference id => [id]
  | .payload p => p.references

/-- How many steps it takes at most to let go of something pending, deaths that follow apart. -/
def weight : Pending → Nat
  | .reference _ => 1
  | .payload _ => 2

def ofValue (v : Value) : List Pending := v.references.map .reference

end Pending

end ScriptCore
