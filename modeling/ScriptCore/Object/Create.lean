import ScriptCore.Heap.Collect

/-!
# Creating objects

Every heap has four prototypes: the root of all chains, and the prototypes of arrays, strings and
functions, which are linked to it. They are made when the first of them is needed, and the heap
holds them for good. New objects come held by the caller once.
-/

namespace ScriptCore

namespace HeapM

def realm : HeapM Realm := do
  match (← get).realm with
  | some r => return r
  | none =>
    let root ← allocObject (.plain "Object" none)
    let arrayPrototype ← allocObject (.plain "Array" (some root))
    let stringPrototype ← allocObject (.plain "String" (some root))
    let functionPrototype ← allocObject (.plain "Function" (some root))
    let r : Realm := ⟨root, arrayPrototype, stringPrototype, functionPrototype⟩
    modify fun h => { h with realm := some r }
    return r

/-- An ordinary object with a class name and a prototype, or none. -/
def newWithPrototype (className : String) (prototype : Option NodeId) : HeapM NodeId :=
  allocObject (.plain className prototype)

def newObject : HeapM NodeId := do
  let r ← realm
  newWithPrototype "Object" (some r.objectPrototype)

def newString (text : String) : HeapM NodeId := do
  let r ← realm
  allocObject { Object.plain "String" (some r.stringPrototype) with exotic := .string text }

def newText (text : String) : HeapM Value := return .object (← newString text)

/-- An array of values that the caller holds and goes on holding. -/
def newArray (elements : Array Value) : HeapM NodeId := do
  let r ← realm
  allocObject { Object.plain "Array" (some r.arrayPrototype) with exotic := .array elements }

end HeapM

end ScriptCore
