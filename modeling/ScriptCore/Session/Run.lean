import ScriptCore.Session.Functions
import ScriptCore.Session.Store
import ScriptCore.Settings

/-!
# Running a session

The steps about the collector and the settings, and what every step has in common: its value or its
error may go into a register, its answer is drawn up, and what it held is let go. A step that fails
answers its failure, and the next one runs all the same.
-/

namespace ScriptCore

namespace CollectorRequest

/-- Collect garbage, perhaps while an object counts as being changed. -/
def collectNow (borrowed : Option NodeId) : HeapM Nat := modifyGet fun h =>
  let (swept, collected) := { h with borrowed := borrowed.toList ++ h.borrowed }.collect
  (collected, { swept with borrowed := h.borrowed })

def settings (source : SettingsSource) : StepM Settings :=
  match source with
  | .default => return .default
  | .json text =>
    match Settings.ofText text with
    | some settings => return settings
    | none => .fail .badSettings
  | .variables values => .orFail (Settings.ofVariables fun name => values.lookup name)

def perform : CollectorRequest → StepM Outcome
  | .collect borrowed => do
    let borrowed ← .takeObject? borrowed
    .fact "collected" (.ofNat (← collectNow borrowed))
  | .stats => do
    let stats := (← StepM.heap).collector.stats
    return .facts [
      ("collections", .ofNat stats.collections),
      ("live", .ofNat stats.live),
      ("last", .ofNat stats.lastCollected),
      ("total", .ofNat stats.totalCollected)]
  | .threshold new => do
    StepM.onHeap <| modify fun h => (new.map h.setThreshold).getD h
    .fact "threshold" (.ofNat (← StepM.heap).collector.threshold)
  | .configure source install => do
    let settings ← settings source
    if install then StepM.onHeap <| modify fun h => h.configure settings
    return .facts [
      ("gc_threshold", .ofNat settings.gcThreshold),
      ("max_display_depth", .ofNat settings.maxDisplayDepth),
      ("active_threshold", .ofNat (← StepM.heap).collector.threshold)]

end CollectorRequest

namespace Request

def perform : Request → StepM Outcome
  | .value r => r.perform
  | .store r => r.perform
  | .object r => r.perform
  | .function r => r.perform
  | .scope r => r.perform
  | .collector r => r.perform

end Request

/-- What a step answers. -/
inductive Answer where
  | facts (entries : List (String × Snapshot))
  /-- a failure, with the error's message and the value it carries if it is an error of a script -/
  | failure (cause : Failure) (message : Option String) (value : Option Snapshot)

namespace Session

def registersOf (s : Session) (id : NodeId) : List String :=
  let names := (s.registers.entries.filter fun entry => entry.2 = .object id).map Prod.fst
  names.mergeSort fun a b => decide (a ≤ b)

/-- A value as an answer, with the registers that hold the same object if it is one. -/
def valueFacts (s : Session) (v : Value) : List (String × Snapshot) :=
  let shown := ("v", s.heap.snapshot v)
  match v with
  | .object id => [shown, ("is", .texts (s.registersOf id))]
  | _ => [shown]

def failureAnswer (s : Session) (cause : Failure) : Answer :=
  match cause with
  | .error e => .failure cause (some (e.message s.heap)) (e.value?.map s.heap.snapshot)
  | cause => .failure cause none none

end Session

namespace StepM

/-- Put a value into a register if one is named, and let it go otherwise. -/
def storeOrLetGo (name : Option String) (v : Value) : StepM Unit :=
  match name with
  | some name => store name v
  | none => HeapM.letGo v

def conclude (step : Step) (outcome : Outcome) : StepM Answer := do
  match outcome with
  | .facts entries => return .facts entries
  | .value v =>
    let facts := (← getThe Session).valueFacts v
    storeOrLetGo step.keepIn v
    return .facts facts

/-- Draw up the answer of a step that failed. An error may be kept as a value. -/
def recover (step : Step) (cause : Failure) : StepM Answer := do
  let answer := (← getThe Session).failureAnswer cause
  match cause, step.catchIn with
  | .error e, some name => store name (← e.toValue)
  | .error e, none => e.value?.forM fun v => HeapM.letGo v
  | _, _ => pure ()
  return answer

def finish : StepM Unit := do
  let s ← getThe Session
  set { s with temporaries := [] }
  s.temporaries.forM fun v => HeapM.letGo v

def around (step : Step) (perform : StepM Outcome) : StepM Answer := do
  let answer ← tryCatch (do conclude step (← perform)) (recover step)
  finish
  return answer

def whole (step : Step) : StepM Answer := around step step.request.perform

end StepM

namespace Session

def step (s : Session) (step : Step) : Answer × Session :=
  match (StepM.whole step).run.run s with
  | (.ok answer, s) => (answer, s)
  | (.error cause, s) => (s.failureAnswer cause, s)

/-- Run steps in order: their answers, and the session afterwards. -/
def run (s : Session) : List Step → List Answer × Session
  | [] => ([], s)
  | first :: rest =>
    let (answer, s) := s.step first
    let (answers, s) := s.run rest
    (answer :: answers, s)

end Session

end ScriptCore
