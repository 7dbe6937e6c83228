import ScriptCore.Environment
import ScriptCore.Function
import ScriptCore.Object.Accessor
import ScriptCore.Operator
import ScriptCore.Text.Utf8

/-!
# Calls

Calling a function runs a native function or a closure of the host, or hands the call to an engine.
One engine runs nothing and refuses. The other, the evaluator, runs scripts in a new scope inside
the one they closed over, and bytecode in the scope it was given; it counts the calls that reach it.

The outcome of a call, a value or an error, is held by the caller.
-/

namespace ScriptCore

/-- Who runs functions that are not the host's. -/
inductive Engine where
  | nativeOnly
  | evaluator
deriving DecidableEq

/-- A heap, and how many calls were handed to the evaluator. -/
structure Runtime where
  heap : Heap
  engineCalls : Nat

abbrev RunM := StateM Runtime

namespace RunM

def onHeap {α : Type} (action : HeapM α) : RunM α := fun runtime =>
  let (a, heap) := action.run runtime.heap
  (a, { runtime with heap := heap })

instance : MonadLift HeapM RunM := ⟨onHeap⟩

def heap : RunM Heap := do return (← get).heap

end RunM

namespace Error

/-- An error as a value for a handler: what was thrown, or the message as a string. The error gives
up the value it held, and the caller holds the result. -/
def toValue (e : Error) : HeapM Value := do
  match e with
  | .thrown v => return v
  | e =>
    let v ← HeapM.newText (e.message (← get))
    (e.value?).forM HeapM.letGo
    return v

end Error

namespace HeapM

/-- A value that is somewhere on the heap, as the outcome of a call. -/
def answer (v : Value) : HeapM (Except Error Value) := do
  hold v
  return .ok v

def runNative (code : NativeCode) (name : String) (this : Value) (args : List Value) :
    HeapM (Except Error Value) := do
  let first := args.headD .undefined
  match code with
  | .undef | .apply => return .ok .undefined
  | .self => answer this
  | .first => answer first
  | .count => return .ok (.ofNat args.length)
  | .array => return .ok (.object (← newArray args.toArray))
  | .sum =>
    match args with
    | [a, b] => return .ok (← binary .add a b)
    | _ => return .error (.wrongArgCount name)
  | .refuse => return .error (.wrongArgType name)
  | .throw =>
    hold first
    return .error (.thrown first)
  | .tag => answer (← look fun h => h.lookupFieldOf this "tag")
  | .store =>
    assignFieldOf this "stored" first
    return .ok .undefined

/-- Run a closure of the host, which belongs to the function `id`. -/
def runClosure (id : NodeId) (f : Callable) (identity : Nat) (state : Closure) (args : List Value) :
    HeapM (Except Error Value) := do
  match state with
  | .const captured => answer captured
  | .counter last =>
    let next := last + 1
    modify fun h => h.setCallable id { f with body := .closure identity (.counter next) }
    return .ok (.integer next)
  | .raise captured =>
    hold captured
    return .error (.thrown captured)
  | .record captured =>
    let first := args.headD .undefined
    assignFieldOf captured "last" first
    answer first

def increment (scope : NodeId) (name : String) : HeapM (Except Error Value) := do
  let current := ((← get).readVariable scope name).getD .undefined
  let next ← binary .add current (.integer 1)
  match ← assignVariable scope name next with
  | .ok () => return .ok next
  | .error e =>
    letGo next
    return .error e

/-- Define the parameters of a function in a scope, undefined where arguments are missing. -/
def defineParams (scope : NodeId) : List String → List Value → HeapM Unit
  | [], _ => return
  | name :: names, args => do
    define scope name (args.headD .undefined) true
    defineParams scope names args.tail

def runScript (id : NodeId) (f : Callable) (code : ScriptCode) (scope : NodeId) (this : Value) :
    HeapM (Except Error Value) := do
  let read (h : Heap) (name : String) : Value := (h.readVariable scope name).getD .undefined
  match code with
  | .sum =>
    let h ← get
    return .ok (← binary .add (read h "a") (read h "b"))
  | .self => answer this
  | .name => return .ok (← newText f.name)
  | .get name => answer (read (← get) name)
  | .increment name => increment scope name
  | .foreign =>
    hold (.object id)
    return .error (.notCallable (.object id))

/-- Run an interpreted function: a new scope, its parameters, its body. -/
def runInterpreted (id : NodeId) (f : Callable) (code : ScriptCode) (closure : NodeId)
    (this : Value) (args : List Value) : HeapM (Except Error Value) := do
  let scope ← newScope (some closure)
  defineParams scope f.params args
  let outcome ← runScript id f code scope this
  modify fun h => h.letGo [.reference scope]
  return outcome

end HeapM

namespace RunM

def enter (engine : Engine) (f : Callable) (run : HeapM (Except Error Value)) :
    RunM (Except Error Value) := do
  match engine with
  | .nativeOnly => return .error (.unsupported f.kind f.name)
  | .evaluator =>
    modify fun runtime => { runtime with engineCalls := runtime.engineCalls + 1 }
    run

/-- Run the body of a function, other than the native function `apply`. -/
def runBody (engine : Engine) (id : NodeId) (f : Callable) (this : Value) (args : List Value) :
    RunM (Except Error Value) := do
  match f.body with
  | .native code => HeapM.runNative code f.name this args
  | .closure identity state => HeapM.runClosure id f identity state args
  | .interpreted script scope =>
    enter engine f (HeapM.runInterpreted id f script.code scope this args)
  | .compiled _ none => return .error (.unboundTemplate f.name)
  | .compiled bytecode (some scope) =>
    enter engine f (HeapM.increment scope (Text.ofBytes bytecode))

def refuse (callee : Value) : RunM (Except Error Value) := do
  HeapM.hold callee
  return .error (.notCallable callee)

def rethrow (outcome : Except Error Value) : RunM (Except Error Value) := do
  match outcome with
  | .ok v => return .ok v
  | .error e => return .error (.thrown (← e.toValue))

/-- Call a value. A bound `this` goes before the caller's, and what the function refers to is held
until the call is over. The native function `apply` calls its first argument with the arguments
after it, so that calls inside calls use up arguments. -/
def call (engine : Engine) (callee this : Value) (args : List Value) :
    RunM (Except Error Value) := do
  match callee.id?, (← heap).callable? callee with
  | some id, some f =>
    let this := f.boundThis.getD this
    HeapM.holdCallable f
    let outcome ←
      if f.body = .native .apply then
        match args with
        | [] => do rethrow (← refuse .undefined)
        | inner :: rest => do rethrow (← call engine inner this rest)
      else runBody engine id f this args
    HeapM.letGoCallable f
    return outcome
  | _, _ => refuse callee

/-! ## Accessors -/

/-- Call the nearest getter of a name; undefined if there is none. -/
def callGetter (engine : Engine) (id : NodeId) (key : String) : RunM (Except Error Value) := do
  match (← heap).findGetter? id key with
  | some getter =>
    HeapM.hold (.object getter)
    let outcome ← call engine (.object getter) (.object id) []
    HeapM.letGo (.object getter)
    return outcome
  | none => return .ok .undefined

/-- Call the nearest setter of a name; without one, nothing happens. -/
def callSetter (engine : Engine) (id : NodeId) (key : String) (v : Value) :
    RunM (Except Error Unit) := do
  match (← heap).findSetter? id key with
  | some setter =>
    HeapM.hold (.object setter)
    let outcome ← call engine (.object setter) (.object id) [v]
    HeapM.letGo (.object setter)
    match outcome with
    | .ok result =>
      HeapM.letGo result
      return .ok ()
    | .error e => return .error e
  | none => return .ok ()

/-- Read a name: by its getter if the chain has one, else as a plain field. -/
def getProperty (engine : Engine) (id : NodeId) (key : String) : RunM (Except Error Value) := do
  let h ← heap
  if (h.findGetter? id key).isSome then callGetter engine id key
  else HeapM.answer (h.lookupField id key)

/-- Write a name: by its setter if the chain has one, else as a plain field. -/
def setProperty (engine : Engine) (id : NodeId) (key : String) (v : Value) :
    RunM (Except Error Unit) := do
  if ((← heap).findSetter? id key).isSome then callSetter engine id key v
  else
    HeapM.assignField id key v
    return .ok ()

end RunM

end ScriptCore
