import ScriptCore.Object.Field

/-!
# Functions

A function is an object with a callable. It comes with an object of its own under `prototype`, whose
`constructor` leads back to the function. The first `this` that is bound to a function stays with
it. A compiled function that is copied gets a scope, and the copy shares nothing else with it that
can change.
-/

namespace ScriptCore

namespace Heap

def callableOf? (h : Heap) (id : NodeId) : Option Callable := (h.object? id).bind Object.callable?

def setCallable (h : Heap) (id : NodeId) (f : Callable) : Heap :=
  match h.object? id with
  | some o => h.setObject id { o with exotic := .function f }
  | none => h

end Heap

namespace HeapM

def holdCallable (f : Callable) : HeapM Unit := modify fun h => h.addHandles f.references

def letGoCallable (f : Callable) : HeapM Unit :=
  modify fun h => h.letGo (f.references.map .reference)

/-- A function object with its prototype object. What the callable refers to is held by the caller,
who goes on holding it. -/
def newFunction (f : Callable) : HeapM NodeId := do
  let r ← realm
  let id ← allocObject
    { Object.plain "Function" (some r.functionPrototype) with exotic := .function f }
  let prototype ← newObject
  assignField prototype "constructor" (.object id)
  assignField id "prototype" (.object prototype)
  handOver [.object prototype]
  return id

/-- Fix the `this` of a function, unless it is fixed already. -/
def bindThis (id : NodeId) (this : Value) : HeapM (Except Error Unit) := do
  let h ← get
  match h.callableOf? id with
  | some f =>
    if f.boundThis.isNone then set (h.setCallable id { f with boundThis := some this })
    return .ok ()
  | none =>
    hold (.object id)
    return .error (.notCallable (.object id))

/-- A copy of a compiled function that runs in a scope. What the function refers to is held while the
copy is made. -/
def copyCompiled (id scope : NodeId) : HeapM (Except Error NodeId) := do
  match (← get).callableOf? id with
  | none =>
    hold (.object id)
    return .error (.notCallable (.object id))
  | some f =>
    match f.body with
    | .compiled bytecode _ =>
      holdCallable f
      let copy ← newFunction { f with body := .compiled bytecode (some scope) }
      letGoCallable f
      return .ok copy
    | _ =>
      hold (.object id)
      return .error (.invalidConversion (.object id) "compiled function")

end HeapM

end ScriptCore
