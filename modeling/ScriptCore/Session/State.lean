import ScriptCore.Session.Request
import ScriptCore.Session.Snapshot

/-!
# Sessions

A session is a heap with a host around it, which keeps values in registers, scopes under names, and
a table whose keys are values. Everything that the host keeps it holds on the heap. The values that
one step has made are held until the step ends.
-/

namespace ScriptCore

structure Session where
  runtime : Runtime
  registers : Fields Value
  scopes : Fields NodeId
  /-- Keys and values. A key that is there stays when its value is replaced. -/
  table : List (Value × Value)
  /-- The script bodies that have labels. -/
  scripts : Fields Script
  /-- The next identity to give to a body or a closure. -/
  fresh : Nat
  /-- What the present step holds. -/
  temporaries : List Value

/-- Why a step has no answer. -/
inductive Failure where
  /-- an object was needed, and there was a scalar -/
  | notAnObject
  /-- a function was needed, and there was another object -/
  | notAFunction
  | jsonSyntax
  | badTemplate
  | badSettings
  /-- the request names something that is not there -/
  | badInput
  | error (e : Error)

abbrev StepM := ExceptT Failure (StateM Session)

/-- What a step comes to: labelled facts, or a value that the step holds. -/
inductive Outcome where
  | facts (entries : List (String × Snapshot))
  | value (v : Value)

namespace Session

def initial : Session := ⟨⟨.initial, 0⟩, .empty, .empty, [], .empty, 0, []⟩

def heap (s : Session) : Heap := s.runtime.heap

end Session

namespace StepM

def onRuntime {α : Type} (action : RunM α) : StepM α := do
  let s ← getThe Session
  let (a, runtime) := action.run s.runtime
  set { s with runtime := runtime }
  return a

instance : MonadLift RunM StepM := ⟨onRuntime⟩

def onHeap {α : Type} (action : HeapM α) : StepM α := onRuntime (RunM.onHeap action)

instance : MonadLift HeapM StepM := ⟨onHeap⟩

def heap : StepM Heap := do return (← getThe Session).heap

def fail {α : Type} (failure : Failure) : StepM α := throw failure

def orFail {α : Type} (result : Except Error α) : StepM α :=
  match result with
  | .ok a => return a
  | .error e => fail (.error e)

def required {α : Type} (x : Option α) : StepM α :=
  match x with
  | some a => return a
  | none => fail .badInput

/-- Hold a value that the step owns until the step ends. -/
def keep (v : Value) : StepM Unit :=
  modifyThe Session fun s => { s with temporaries := s.temporaries ++ [v] }

/-- Do something that may fail while holding values for it; if it fails, they are let go. -/
def orLetGo {α : Type} (vs : List Value) (action : StepM α) : StepM α :=
  tryCatch action fun cause => do
    vs.forM fun v => HeapM.letGo v
    throw cause

/-! ## Literals -/

def nestInArrays : Nat → Value → HeapM Value
  | 0, v => return v
  | depth + 1, v => do
    let id ← HeapM.newArray #[v]
    HeapM.handOver [v]
    nestInArrays depth (.object id)

def nestInObjects (key : String) : Nat → Value → HeapM Value
  | 0, v => return v
  | depth + 1, v => do
    let id ← HeapM.newObject
    HeapM.assignField id key v
    HeapM.letGo v
    nestInObjects key depth (.object id)

def intrinsic (which : Intrinsic) : HeapM NodeId := do
  let r ← HeapM.realm
  return match which with
    | .object => r.objectPrototype
    | .array => r.arrayPrototype
    | .string => r.stringPrototype
    | .function => r.functionPrototype

mutual

/-- Make a literal into a value that the caller holds. The elements of an array are made before the
array; an object is made first and then assigned its fields one by one. -/
def make : Literal → StepM Value
  | .undefined => return .undefined
  | .null => return .null
  | .boolean b => return .boolean b
  | .integer n => return .integer n
  | .double d => return .double d
  | .text s => HeapM.newText s
  | .array items => do
    let items ← makeAll items
    let id ← HeapM.newArray items.toArray
    HeapM.handOver items
    return .object id
  | .object entries => do
    let id ← HeapM.newObject
    orLetGo [.object id] (makeFields id entries)
    return .object id
  | .register name => do
    let v ← required ((← getThe Session).registers.get? name)
    HeapM.hold v
    return v
  | .intrinsic which => do
    let v := Value.object (← intrinsic which)
    HeapM.hold v
    return v
  | .nestedArray depth of => do
    let v ← make of
    nestInArrays depth v
  | .nestedObject depth key of => do
    let v ← make of
    nestInObjects key depth v
  | .repeated s times => HeapM.newText (String.join (List.replicate times s))

def makeAll : List Literal → StepM (List Value)
  | [] => return []
  | l :: ls => do
    let v ← make l
    let vs ← orLetGo [v] (makeAll ls)
    return v :: vs

def makeFields (id : NodeId) : List (String × Literal) → StepM Unit
  | [] => return
  | (key, l) :: rest => do
    let v ← make l
    HeapM.assignField id key v
    HeapM.letGo v
    makeFields id rest

end

def take (l : Literal) : StepM Value := do
  let v ← make l
  keep v
  return v

def takeAll : List Literal → StepM (List Value)
  | [] => return []
  | l :: ls => do
    let v ← take l
    return v :: (← takeAll ls)

def takeObject (l : Literal) : StepM NodeId := do
  match ← take l with
  | .object id => return id
  | _ => fail .notAnObject

def takeObject? (l : Option Literal) : StepM (Option NodeId) := do
  match l with
  | some l => return some (← takeObject l)
  | none => return none

def scope (name : String) : StepM NodeId := do required ((← getThe Session).scopes.get? name)

/-! ## Outcomes -/

def valueOf (v : Value) : StepM Outcome := do
  HeapM.hold v
  return .value v

def fact (label : String) (s : Snapshot) : StepM Outcome := return .facts [(label, s)]

def shown (v : Value) : StepM Snapshot := return (← heap).snapshot v

def factOf (label : String) (v : Value) : StepM Outcome := do fact label (← shown v)

end StepM

end ScriptCore
