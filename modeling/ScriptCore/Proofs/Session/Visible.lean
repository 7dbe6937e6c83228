import ScriptCore.Proofs.Session.Answering

/-!
# What a program can see

Some answers tell of the collector: its statistics and its threshold, what a collection came to, and
which payloads have been released so far. `Request.visible` leaves these facts out, and nothing else.
What is left out of the outcome of a step is left out of its answer (`StepM.around_without`), and what
a step leaves behind does not depend on what it tells (`StepM.around_untold`).

The order of two closures, and of two scripts in their scopes, is the order in which they stand in
memory. An answer is **settled** if it is the same wherever they stand (`Session.Settled`).
-/

namespace ScriptCore

/-- The labels under which a request tells of the collector. -/
def Request.hidden : Request → List String
  | .object .drops => ["drops"]
  | .collector (.collect _) => ["collected"]
  | .collector .stats => ["collections", "live", "last", "total"]
  | .collector (.threshold none) => ["threshold"]
  | .collector (.configure _ false) => ["active_threshold"]
  | _ => []

def Request.asksOrder : Request → Bool
  | .value r => r.asksOrder
  | .function r => r.asksOrder
  | _ => false

def Facts.without (labels : List String) (entries : List (String × Snapshot)) :
    List (String × Snapshot) := entries.filter fun entry => !labels.contains entry.1

def Outcome.without (labels : List String) : Outcome → Outcome
  | .facts entries => .facts (Facts.without labels entries)
  | .value v => .value v

def Answer.without (labels : List String) : Answer → Answer
  | .facts entries => .facts (Facts.without labels entries)
  | .failure cause message value => .failure cause message value

def Request.visible (r : Request) (answer : Answer) : Answer := answer.without r.hidden

theorem Request.hidden_disjoint (r : Request) : "v" ∉ r.hidden ∧ "is" ∉ r.hidden := by
  unfold hidden
  split <;> decide

theorem Facts.without_nil (entries : List (String × Snapshot)) :
    Facts.without [] entries = entries := List.filter_eq_self.mpr fun _ _ => rfl

theorem Outcome.without_nil (o : Outcome) : o.without [] = o := by
  cases o with
  | facts entries => exact congrArg Outcome.facts (Facts.without_nil entries)
  | value v => rfl

theorem Outcome.untold_without (labels : List String) (o : Outcome) :
    (o.without labels).untold = o.untold := by cases o <;> rfl

theorem Session.without_valueFacts {labels : List String} (hv : "v" ∉ labels) (hi : "is" ∉ labels)
    (s : Session) (v : Value) : Facts.without labels (s.valueFacts v) = s.valueFacts v := by
  unfold Session.valueFacts
  cases v <;> simp [Facts.without, hv, hi]

namespace StepM

variable {labels : List String}

theorem without_failureAnswer (s : Session) (cause : Failure) :
    (s.failureAnswer cause).without labels = s.failureAnswer cause := by
  cases cause <;> rfl

theorem conclude_without (hv : "v" ∉ labels) (hi : "is" ∉ labels) (step : Step) (o : Outcome) :
    Answer.without labels <$> conclude step o = conclude step (o.without labels) := by
  cases o with
  | facts entries => rfl
  | value v =>
    simp only [conclude, Outcome.without, map_bind, map_pure, Answer.without,
      Session.without_valueFacts hv hi]

theorem recover_without (step : Step) (cause : Failure) :
    Answer.without labels <$> recover step cause = recover step cause := by
  unfold recover
  split <;> simp only [map_bind, map_pure, without_failureAnswer]

theorem map_tryCatch {α β : Type} (f : α → β) (m : StepM α) (handle : Failure → StepM α) :
    f <$> MonadExcept.tryCatch m handle =
      MonadExcept.tryCatch (f <$> m) fun cause => f <$> handle cause := by
  refine ExceptT.ext (StateT.ext fun s => ?_)
  rw [ExceptT.run_map, ExceptT.run_tryCatch, ExceptT.run_tryCatch, ExceptT.run_map]
  simp only [StateT.run_bind, StateT.run_map]
  obtain ⟨r, s₁⟩ := m.run.run s
  cases r with
  | ok a => rfl
  | error cause =>
    show _ = (f <$> handle cause).run.run s₁
    rw [ExceptT.run_map, StateT.run_map]
    rfl

theorem map_around {β : Type} (f : Answer → β) (step : Step) (m : StepM Outcome) :
    f <$> around step m = (do
      let b ← tryCatch (do f <$> conclude step (← m)) fun cause => f <$> recover step cause
      finish
      return b) := by
  rw [← map_bind, ← map_tryCatch, bind_map_left]
  simp only [around, map_bind, map_pure]

/-- **What is left out of an outcome** is left out of the answer, and changes nothing else. -/
theorem around_without (hv : "v" ∉ labels) (hi : "is" ∉ labels) (step : Step) (m : StepM Outcome) :
    Answer.without labels <$> around step m = around step (Outcome.without labels <$> m) := by
  rw [map_around]
  simp only [conclude_without hv hi, recover_without, around, bind_map_left]

/-- **What a step leaves behind** does not depend on what it tells. -/
theorem around_untold (step : Step) (m : StepM Outcome) :
    Function.const Answer () <$> around step (Outcome.untold <$> m) =
      Function.const Answer () <$> around step m := by
  have hconclude (o : Outcome) : Function.const Answer () <$> conclude step o.untold =
      Function.const Answer () <$> conclude step o := by
    cases o <;> rfl
  simp only [map_around, bind_map_left, hconclude]

end StepM

/-! ## Runs -/

/-- Whether a step is a call of the collector and nothing else. -/
def Step.isCollection (step : Step) : Bool :=
  match step.request with
  | .collector (.collect none) => true
  | _ => false

namespace Session

def placedAt (s : Session) (p : Places Nat) : Session :=
  { s with runtime := { s.runtime with heap := s.heap.placedAt p } }

/-- A session at its start: where things stand in memory, and a threshold for the collector. -/
def start (p : Places Nat) (threshold : Nat) : Session :=
  { initial with
    runtime := { initial.runtime with heap := (initial.heap.placedAt p).setThreshold threshold } }

def visibleAnswer (s : Session) (step : Step) : Answer := step.request.visible (s.step step).1

/-- Whether a program sees the same answer wherever closures, scripts and scopes stand. Native functions
are part of the program and stand where they stand. -/
def Settled (s : Session) (step : Step) : Prop :=
  ∀ p : Places Nat, p.native = s.heap.places.native →
    (s.placedAt p).visibleAnswer step = s.visibleAnswer step

end Session

end ScriptCore
