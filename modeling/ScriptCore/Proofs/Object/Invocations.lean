import ScriptCore.Call
import ScriptCore.Proofs.Agreement.Runs

/-!
# Invocations

The machinery of calls and of accessors, taken apart from the running of functions, which is left open
(`Runner`): whatever the machinery runs, it hands to a runner. With the runner of an engine it is the
machinery as it is (`callGetter_eq`, `callSetter_eq`, `getProperty_eq`, `setProperty_eq`). With a runner
that records, it tells which functions it has run, and with what (`recorded`). What these call in their
turn is theirs and is not recorded.

`Runs` puts the two together: where an action comes to, and what it has handed to its runner until then.
-/

namespace ScriptCore

/-- A function that is run: which one it is, its `this` and its arguments. -/
structure Invocation where
  function : NodeId
  this : Value
  args : List Value

abbrev Runner (m : Type → Type) :=
  NodeId → Callable → Value → List Value → m (Except Error Value)

namespace RunM

/-! ## The machinery, whoever runs functions -/

def dropResult (outcome : Except Error Value) : RunM (Except Error Unit) := do
  match outcome with
  | .ok result =>
    HeapM.letGo result
    return .ok ()
  | .error e => return .error e

section Open

variable {m : Type → Type} [Monad m] [MonadLiftT RunM m] (run : Runner m)

def callBy (callee this : Value) (args : List Value) : m (Except Error Value) := do
  match callee.id?, (← heap).callable? callee with
  | some id, some f =>
    onHeap (HeapM.holdCallable f)
    let outcome ← run id f (f.boundThis.getD this) args
    onHeap (HeapM.letGoCallable f)
    return outcome
  | _, _ => refuse callee

def callAccessorBy (accessor : NodeId) (this : Value) (args : List Value) :
    m (Except Error Value) := do
  onHeap (HeapM.hold (.object accessor))
  let outcome ← callBy run (.object accessor) this args
  onHeap (HeapM.letGo (.object accessor))
  return outcome

def callGetterBy (id : NodeId) (key : String) : m (Except Error Value) := do
  match (← heap).findGetter? id key with
  | some getter => callAccessorBy run getter (.object id) []
  | none => return .ok .undefined

def callSetterBy (id : NodeId) (key : String) (v : Value) : m (Except Error Unit) := do
  match (← heap).findSetter? id key with
  | some setter =>
    let outcome ← callAccessorBy run setter (.object id) [v]
    dropResult outcome
  | none => return .ok ()

def getPropertyBy (id : NodeId) (key : String) : m (Except Error Value) := do
  let h ← heap
  if (h.findGetter? id key).isSome then callGetterBy run id key
  else onHeap (HeapM.answer (h.lookupField id key))

def setPropertyBy (id : NodeId) (key : String) (v : Value) : m (Except Error Unit) := do
  if ((← heap).findSetter? id key).isSome then callSetterBy run id key v
  else
    onHeap (HeapM.assignField id key v)
    return .ok ()

end Open

/-! ## The runner of an engine -/

/-- Run a function. The native function `apply` calls its first argument. -/
def runFunction (engine : Engine) : Runner RunM := fun id f this args =>
  if f.body = .native .apply then
    match args with
    | [] => do rethrow (← refuse .undefined)
    | inner :: rest => do rethrow (← call engine inner this rest)
  else runBody engine id f this args

variable (engine : Engine) (callee this v : Value) (args : List Value) (id : NodeId) (key : String)

theorem call_eq : call engine callee this args = callBy (runFunction engine) callee this args := by
  unfold call callBy
  refine congrArg (heap >>= ·) (funext fun h => ?_)
  cases callee.id? with
  | none => rfl
  | some id =>
    cases h.callable? callee with
    | none => rfl
    | some f =>
      dsimp only [runFunction]
      split
      · cases args <;> rfl
      · rfl

theorem callGetter_eq : callGetter engine id key = callGetterBy (runFunction engine) id key := by
  unfold callGetter callGetterBy callAccessorBy
  simp only [call_eq]
  rfl

theorem callSetter_eq : callSetter engine id key v = callSetterBy (runFunction engine) id key v := by
  unfold callSetter callSetterBy callAccessorBy
  simp only [call_eq]
  refine congrArg (heap >>= ·) (funext fun h => ?_)
  cases h.findSetter? id key with
  | none => rfl
  | some setter => rfl

theorem getProperty_eq : getProperty engine id key = getPropertyBy (runFunction engine) id key := by
  unfold getProperty getPropertyBy
  rw [callGetter_eq]
  rfl

theorem setProperty_eq : setProperty engine id key v = setPropertyBy (runFunction engine) id key v := by
  unfold setProperty setPropertyBy
  rw [callSetter_eq]
  rfl

abbrev RecordM := StateT (List Invocation) RunM

def recorded : Runner RecordM := fun id f this args => do
  modify fun record => record ++ [⟨id, this, args⟩]
  runFunction engine id f this args

end RunM

namespace Runtime

def holding (r : Runtime) (ids : List NodeId) : Runtime := { r with heap := r.heap.addHandles ids }

def letGo (r : Runtime) (items : List Pending) : Runtime := { r with heap := r.heap.letGo items }

theorem callableOf?_holding {r : Runtime} {ids : List NodeId} {id : NodeId} :
    (r.holding ids).heap.callableOf? id = r.heap.callableOf? id := by
  rw [Heap.callableOf?, Heap.callableOf?, Heap.object?, Heap.object?, holding,
    Heap.node?_addHandles]

end Runtime

namespace RunM

/-- An action comes to an end, and the same action with a record to the same end. It has handed the
functions of the record to the runner, in this order, and no others. -/
structure Runs {α : Type} (plain : RunM α) (recording : RecordM α) (r : Runtime) (a : α)
    (record : List Invocation) (r' : Runtime) : Prop where
  run_eq : plain.run r = (a, r')
  recording_eq : ∀ before, (recording.run before).run r = ((a, before ++ record), r')

namespace Runs

variable {α β : Type} {plain : RunM α} {recording : RecordM α} {f : α → RunM β}
  {g : α → RecordM β} {r r' r'' : Runtime} {a : α} {b : β} {record record' : List Invocation}
  {engine : Engine}

theorem pure (a : α) (r : Runtime) : Runs (Pure.pure a) (Pure.pure a) r a [] r := by
  refine ⟨rfl, fun before => ?_⟩
  rw [List.append_nil]
  rfl

theorem bind (h : Runs plain recording r a record r') (h' : Runs (f a) (g a) r' b record' r'') :
    Runs (plain >>= f) (recording >>= g) r b (record ++ record') r'' := by
  refine ⟨(run_bind_of_run h.run_eq).trans h'.run_eq, fun before => ?_⟩
  rw [StateT.run_bind, run_bind_of_run (h.recording_eq before), ← List.append_assoc]
  exact h'.recording_eq _

theorem heap_bind {f : Heap → RunM β} {g : Heap → RecordM β}
    (h : Runs (f r.heap) (g r.heap) r b record r') : Runs (heap >>= f) (heap >>= g) r b record r' :=
  ⟨h.run_eq, h.recording_eq⟩

theorem lift (h : plain.run r = (a, r')) : Runs plain plain r a [] r' := by
  refine ⟨h, fun before => ?_⟩
  show (do
    let a ← plain
    Pure.pure (a, before)).run r = _
  rw [run_bind_of_run h, List.append_nil]
  rfl

theorem onHeap (action : HeapM α) (r : Runtime) : Runs (RunM.onHeap action) (RunM.onHeap action) r
    (action.run r.heap).1 [] { r with heap := (action.run r.heap).2 } :=
  lift rfl

theorem invoked {function : NodeId} {f : Callable} {this : Value} {args : List Value}
    {outcome : Except Error Value}
    (h : (runFunction engine function f this args).run r = (outcome, r')) :
    Runs (runFunction engine function f this args) (RunM.recorded engine function f this args) r
      outcome [⟨function, this, args⟩] r' := by
  refine ⟨h, fun before => ?_⟩
  show (do
    let outcome ← runFunction engine function f this args
    Pure.pure (outcome, before ++ [Invocation.mk function this args])).run r = _
  rw [run_bind_of_run h]
  rfl

variable {recorder : Runner RecordM} {callee : Value} {function : NodeId} {callable : Callable}
  {this : Value} {args : List Value} {outcome : Except Error Value} {after : Runtime}

/-- **A function is run once when it is called**, with its own `this` if it is bound. -/
theorem of_callable (hf : r.heap.callableOf? function = some callable)
    (hrun : Runs (runFunction engine function callable (callable.boundThis.getD this) args)
      (recorder function callable (callable.boundThis.getD this) args)
      (r.holding callable.references) outcome record after) :
    Runs (RunM.callBy (runFunction engine) (.object function) this args)
      (RunM.callBy recorder (.object function) this args) r outcome record
      (after.letGo (callable.references.map .reference)) := by
  have hf : r.heap.callable? (.object function) = some callable := hf
  have hrecord : record = [] ++ (record ++ ([] ++ [])) := by simp
  unfold RunM.callBy
  apply heap_bind
  rw [hf, hrecord]
  exact (onHeap (HeapM.holdCallable callable) r).bind (hrun.bind
    ((onHeap (HeapM.letGoCallable callable) after).bind (pure outcome _)))

theorem of_not_callable (hf : r.heap.callable? callee = none) :
    Runs (RunM.callBy (runFunction engine) callee this args)
      (RunM.callBy recorder callee this args) r
      (.error (.notCallable callee)) [] (r.holding callee.references) := by
  unfold RunM.callBy
  apply heap_bind
  rw [hf]
  cases callee.id? <;> exact lift rfl

theorem accessor {accessor : NodeId}
    (h : Runs (RunM.callBy (runFunction engine) (.object accessor) this args)
      (RunM.callBy recorder (.object accessor) this args) (r.holding [accessor])
      outcome record after) :
    Runs (RunM.callAccessorBy (runFunction engine) accessor this args)
      (RunM.callAccessorBy recorder accessor this args) r outcome record
      (after.letGo [.reference accessor]) := by
  have hrecord : record = [] ++ (record ++ ([] ++ [])) := by simp
  unfold RunM.callAccessorBy
  rw [hrecord]
  exact (onHeap (HeapM.hold (.object accessor)) r).bind
    (h.bind ((onHeap (HeapM.letGo (.object accessor)) after).bind (pure outcome _)))

end Runs

end RunM

end ScriptCore
