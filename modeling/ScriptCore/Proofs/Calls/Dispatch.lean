import ScriptCore.Proofs.Object.Invocations

/-!
# Dispatch

What a call comes to is told by the callee, as it is at that moment: which functions are run, each with
which `this`, and which of them are handed to the engine (`Heap.Calls`). A function that is bound runs
with the value that it is bound to, and another one with the `this` of the caller. A native function may
call another function in its turn; that is a call like any other one.

So calls are recorded at two moments, when a function is run and when the engine is entered (`Moment`),
by runners that do what the engine does and take notes (`noted`). `dispatched` says that the records
are those of the callee, on every runtime.
-/

namespace ScriptCore

def Body.isForEngine : Body → Bool
  | .interpreted .. => true
  | .compiled _ scope => scope.isSome
  | .native _ | .closure .. => false

namespace Heap

variable {h k : Heap} {callee this : Value} {args : List Value} {runs entries : List Invocation}

theorem exists_callableOf? {f : Callable} (hf : h.callable? callee = some f) :
    ∃ id, callee = .object id ∧ h.callableOf? id = some f := by
  cases callee with
  | object id => exact ⟨id, rfl, hf⟩
  | _ => cases hf

/-- **What a call runs**, and what of it is handed to the engine. -/
inductive Calls (h : Heap) :
    Value → Value → List Value → List Invocation → List Invocation → Prop
  /-- What is no function is not run. -/
  | refused {callee this : Value} {args : List Value} (hf : h.callable? callee = none) :
      Calls h callee this args [] []
  /-- A function is run once, and handed to the engine once at most. -/
  | ran {id : NodeId} {f : Callable} {this : Value} {args : List Value}
      (hf : h.callableOf? id = some f) (hbody : f.body ≠ .native .apply) :
      Calls h (.object id) this args [⟨id, f.boundThis.getD this, args⟩]
        (if f.body.isForEngine then [⟨id, f.boundThis.getD this, args⟩] else [])
  /-- The native function `apply` has nothing to call. -/
  | idle {id : NodeId} {f : Callable} {this : Value}
      (hf : h.callableOf? id = some f) (hbody : f.body = .native .apply) :
      Calls h (.object id) this [] [⟨id, f.boundThis.getD this, []⟩] []
  /-- The native function `apply` calls its first argument, with its own `this`. -/
  | applied {id : NodeId} {f : Callable} {this inner : Value} {rest : List Value}
      {runs entries : List Invocation}
      (hf : h.callableOf? id = some f) (hbody : f.body = .native .apply)
      (hinner : Calls h inner (f.boundThis.getD this) rest runs entries) :
      Calls h (.object id) this (inner :: rest)
        (⟨id, f.boundThis.getD this, inner :: rest⟩ :: runs) entries

/-- **A bound function runs with the value that it is bound to**, wherever it is run. -/
theorem Calls.this_eq (hc : h.Calls callee this args runs entries) {i : Invocation} (hi : i ∈ runs) :
    ∃ f, h.callableOf? i.function = some f ∧ ∀ v, f.boundThis = some v → i.this = v := by
  have hbound {f : Callable} (this v : Value) (hv : f.boundThis = some v) :
      f.boundThis.getD this = v := by rw [hv, Option.getD_some]
  induction hc with
  | refused => cases hi
  | ran hf | idle hf =>
    obtain rfl := List.mem_singleton.mp hi
    exact ⟨_, hf, hbound _⟩
  | applied hf _ _ ih =>
    rcases List.mem_cons.mp hi with rfl | hi
    · exact ⟨_, hf, hbound _⟩
    · exact ih hi

theorem Calls.entries_subset (hc : h.Calls callee this args runs entries) : entries ⊆ runs := by
  induction hc with
  | refused => exact List.Subset.refl _
  | ran =>
    split
    · exact List.Subset.refl _
    · exact List.nil_subset _
  | idle => exact List.nil_subset _
  | applied _ _ _ ih => exact fun i hi => List.mem_cons_of_mem _ (ih hi)

/-- **A function is run first**, with what it is bound to or else with the `this` of the caller. If it is
not the native function `apply` nothing else is run, and the engine is entered once or not at all. -/
theorem Calls.of_callableOf? {id : NodeId} {f : Callable}
    (hc : h.Calls (.object id) this args runs entries) (hf : h.callableOf? id = some f) :
    (∃ inner, runs = ⟨id, f.boundThis.getD this, args⟩ :: inner) ∧
      (f.body ≠ .native .apply → runs = [⟨id, f.boundThis.getD this, args⟩] ∧
        entries = if f.body.isForEngine then [⟨id, f.boundThis.getD this, args⟩] else []) := by
  cases hc with
  | refused hnone =>
    have hnone : h.callableOf? id = none := hnone
    rw [hf] at hnone
    cases hnone
  | ran hf' =>
    obtain rfl := Option.some.inj (hf.symm.trans hf')
    exact ⟨⟨[], rfl⟩, fun _ => ⟨rfl, rfl⟩⟩
  | idle hf' hbody =>
    obtain rfl := Option.some.inj (hf.symm.trans hf')
    exact ⟨⟨[], rfl⟩, fun hne => absurd hbody hne⟩
  | applied hf' hbody =>
    obtain rfl := Option.some.inj (hf.symm.trans hf')
    exact ⟨⟨_, rfl⟩, fun hne => absurd hbody hne⟩

theorem Calls.congr (hc : h.Calls callee this args runs entries)
    (hk : ∀ id, k.callableOf? id = h.callableOf? id) : k.Calls callee this args runs entries := by
  induction hc with
  | @refused callee this args hf =>
    refine .refused ?_
    cases callee with
    | object id => exact (hk id).trans hf
    | _ => rfl
  | ran hf hbody => exact .ran ((hk _).trans hf) hbody
  | idle hf hbody => exact .idle ((hk _).trans hf) hbody
  | applied hf hbody _ ih => exact .applied ((hk _).trans hf) hbody ih

end Heap

/-- The moments of a call that can be recorded. -/
inductive Moment where
  /-- a function is run -/
  | run
  /-- the engine is entered -/
  | entry
deriving DecidableEq

namespace Moment

def pick {α : Type} (runs entries : α) : Moment → α
  | .run => runs
  | .entry => entries

def record (moment now : Moment) (i : Invocation) : List Invocation :=
  if now = moment then [i] else []

end Moment

namespace RunM

/-! ## Taking notes -/

section Open

variable {m : Type → Type} [Monad m] [MonadLiftT RunM m]
  (enter : Callable → HeapM (Except Error Value) → m (Except Error Value))

/-- Run the body of a function, other than the native function `apply`, whoever the engine is. -/
def runBodyBy : Runner m := fun id f this args => do
  match f.body with
  | .native code => onHeap (HeapM.runNative code f.name this args)
  | .closure identity state => onHeap (HeapM.runClosure id f identity state args)
  | .interpreted script scope =>
    enter f (HeapM.runInterpreted id f script.code scope this args)
  | .compiled _ none => return .error (.unboundTemplate f.name)
  | .compiled bytecode (some scope) =>
    enter f (HeapM.increment scope (Text.ofBytes bytecode))

end Open

variable (moment : Moment) (engine : Engine)

def note (now : Moment) (i : Invocation) : RecordM Unit :=
  modify fun record => record ++ moment.record now i

/-- Run a function and take notes. `again` is the call that the native function `apply` makes. -/
def notedWith (again : Value → RecordM (Except Error Value)) : Runner RecordM :=
  fun id f this args => do
    note moment .run ⟨id, this, args⟩
    if f.body = .native .apply then rethrow (← again this)
    else
      runBodyBy (fun f run => do
        note moment .entry ⟨id, this, args⟩
        enter engine f run) id f this args

/-- The call that the native function `apply` makes of its arguments. -/
def innerCall : List Value → Value → RunM (Except Error Value)
  | [], _ => refuse .undefined
  | inner :: rest, this => call engine inner this rest

def innerNoted : List Value → Value → RecordM (Except Error Value)
  | [], _ => refuse .undefined
  | inner :: rest, this => callBy (notedWith moment engine (innerNoted rest)) inner this rest

/-- Run functions as an engine does, and take notes of all calls, also of those inside calls. -/
def noted : Runner RecordM := fun id f this args =>
  notedWith moment engine (innerNoted moment engine args) id f this args

variable {engine} {id : NodeId} {f : Callable}

theorem runFunction_of_apply (hbody : f.body = .native .apply) (this : Value) (args : List Value) :
    runFunction engine id f this args = (do rethrow (← innerCall engine args this)) := by
  unfold runFunction
  rw [if_pos hbody]
  cases args <;> rfl

theorem runFunction_of_body (hbody : f.body ≠ .native .apply) (this : Value) (args : List Value) :
    runFunction engine id f this args = runBody engine id f this args := by
  unfold runFunction
  rw [if_neg hbody]

theorem noted_of_apply (hbody : f.body = .native .apply) (this : Value) (args : List Value) :
    noted moment engine id f this args = (do
      note moment .run ⟨id, this, args⟩
      rethrow (← innerNoted moment engine args this)) := by
  rw [noted, notedWith]
  simp only [if_pos hbody]

theorem noted_of_body (hbody : f.body ≠ .native .apply) (this : Value) (args : List Value) :
    noted moment engine id f this args = (do
      note moment .run ⟨id, this, args⟩
      runBodyBy (fun f run => do
        note moment .entry ⟨id, this, args⟩
        enter engine f run) id f this args) := by
  rw [noted, notedWith]
  simp only [if_neg hbody]

namespace Runs

variable {moment : Moment} {α : Type} {plain : RunM α} {recording : RecordM α}
  {this : Value} {args : List Value} {outcome : Except Error Value}
  {r r' : Runtime} {a : α} {record runs entries : List Invocation}

theorem note_bind (now : Moment) (i : Invocation) (h : Runs plain recording r a record r') :
    Runs plain (do note moment now i; recording) r a (moment.record now i ++ record) r' := by
  refine ⟨h.run_eq, fun before => ?_⟩
  rw [← List.append_assoc]
  exact h.recording_eq _

/-- Nothing is written down until the engine is entered, and then it is written down once. -/
theorem body (h : (runBody engine id f this args).run r = (outcome, r')) :
    Runs (runBody engine id f this args)
      (runBodyBy (fun f run => do
        note moment .entry ⟨id, this, args⟩
        enter engine f run) id f this args) r outcome
      (moment.pick [] (if f.body.isForEngine then [⟨id, this, args⟩] else [])) r' := by
  have hnone : moment.pick [] [] = ([] : List Invocation) := by cases moment <;> rfl
  have hentry : moment.pick [] [⟨id, this, args⟩] = moment.record .entry ⟨id, this, args⟩ ++ [] := by
    cases moment <;> rfl
  obtain ⟨name, params, isConstructor, boundThis, body⟩ := f
  cases body with
  | native code | closure identity state =>
    show Runs _ _ r outcome (moment.pick [] []) r'
    rw [hnone]
    exact .lift h
  | interpreted script scope =>
    show Runs _ _ r outcome (moment.pick [] [_]) r'
    rw [hentry]
    exact note_bind .entry _ (.lift h)
  | compiled bytecode scope =>
    cases scope with
    | none =>
      show Runs _ _ r outcome (moment.pick [] []) r'
      rw [hnone]
      exact .lift h
    | some scope =>
      show Runs _ _ r outcome (moment.pick [] [_]) r'
      rw [hentry]
      exact note_bind .entry _ (.lift h)

end Runs

/-! ## Every call -/

/-- The calls that the evaluator has counted when it was entered so many times. -/
def counted (engine : Engine) (entries : List Invocation) : Nat :=
  match engine with
  | .nativeOnly => 0
  | .evaluator => entries.length

theorem engineCalls_runBody (engine : Engine) (f : Callable) (i : Invocation) (r : Runtime) :
    ((runBody engine i.function f i.this i.args).run r).2.engineCalls =
      r.engineCalls + counted engine (if f.body.isForEngine then [i] else []) := by
  obtain ⟨name, params, isConstructor, boundThis, body⟩ := f
  cases body with
  | native code | closure identity state => cases engine <;> rfl
  | interpreted script scope => cases engine <;> rfl
  | compiled bytecode scope => cases scope <;> cases engine <;> rfl

/-- An action does what a call does: it runs what the call runs, and enters the engine for what the call
hands to it. -/
structure Dispatches {α : Type} (plain : RunM α) (recording : Moment → RecordM α) (engine : Engine)
    (r : Runtime) (callee this : Value) (args : List Value) (runs entries : List Invocation) (a : α)
    (r' : Runtime) : Prop where
  calls : r.heap.Calls callee this args runs entries
  noted : ∀ moment, Runs plain (recording moment) r a (moment.pick runs entries) r'
  counted : r'.engineCalls = r.engineCalls + counted engine entries

def Dispatched (engine : Engine) (args : List Value) : Prop :=
  ∀ (callee this : Value) (r : Runtime), ∃ runs entries outcome r',
    Dispatches (call engine callee this args)
      (fun moment => callBy (noted moment engine) callee this args) engine r callee this args runs
      entries outcome r'

variable {args : List Value}

theorem dispatches_of_ran {r after : Runtime} {this : Value}
    {outcome : Except Error Value} {runs entries : List Invocation}
    (hf : r.heap.callableOf? id = some f)
    (hcalls : r.heap.Calls (.object id) this args runs entries)
    (hrun : ∀ moment, Runs (runFunction engine id f (f.boundThis.getD this) args)
      (noted moment engine id f (f.boundThis.getD this) args) (r.holding f.references) outcome
      (moment.pick runs entries) after)
    (hcounted : after.engineCalls = r.engineCalls + counted engine entries) :
    Dispatches (call engine (.object id) this args)
      (fun moment => callBy (noted moment engine) (.object id) this args) engine r (.object id) this
      args runs entries outcome (after.letGo (f.references.map .reference)) := by
  refine ⟨hcalls, fun moment => ?_, hcounted⟩
  rw [call_eq]
  exact .of_callable hf (hrun moment)

theorem pick_nil (moment : Moment) : moment.pick [] [] = ([] : List Invocation) := by
  cases moment <;> rfl

theorem counted_nil (engine : Engine) : counted engine [] = 0 := by cases engine <;> rfl

theorem pick_cons (moment : Moment) (i : Invocation) (runs entries : List Invocation) :
    moment.pick (i :: runs) entries = moment.record .run i ++ moment.pick runs entries := by
  cases moment <;> rfl

/-- **The native function `apply`** makes one call, if it has arguments, and turns its error into a
value. -/
theorem exists_runs_of_apply {r middle : Runtime} {this : Value} {outcome : Except Error Value}
    {runs entries : List Invocation} (hbody : f.body = .native .apply)
    (hinner : ∀ moment, Runs (innerCall engine args this) (innerNoted moment engine args this) r
      outcome (moment.pick runs entries) middle) :
    ∃ thrown after, after.engineCalls = middle.engineCalls ∧ ∀ moment,
      Runs (runFunction engine id f this args) (noted moment engine id f this args) r thrown
        (moment.pick (⟨id, this, args⟩ :: runs) entries) after := by
  obtain ⟨thrown, after, hthrow, hcalls⟩ : ∃ thrown after,
      (rethrow outcome).run middle = (thrown, after) ∧ after.engineCalls = middle.engineCalls := by
    cases outcome <;> exact ⟨_, _, rfl, rfl⟩
  refine ⟨thrown, after, hcalls, fun moment => ?_⟩
  rw [runFunction_of_apply hbody, noted_of_apply moment hbody, pick_cons,
    ← List.append_nil (moment.pick runs entries)]
  exact .note_bind .run _ ((hinner moment).bind (.lift hthrow))

/-- **Any other function** does what its body does. -/
theorem runs_of_body {r after : Runtime} {this : Value} {outcome : Except Error Value}
    (hbody : f.body ≠ .native .apply)
    (hrun : (runBody engine id f this args).run r = (outcome, after)) (moment : Moment) :
    Runs (runFunction engine id f this args) (noted moment engine id f this args) r outcome
      (moment.pick [⟨id, this, args⟩] (if f.body.isForEngine then [⟨id, this, args⟩] else []))
      after := by
  rw [runFunction_of_body hbody, noted_of_body moment hbody, pick_cons]
  exact .note_bind .run _ (.body hrun)

/-- The call inside a call of `apply`, if calls of fewer arguments are dispatched. -/
theorem exists_innerCall (hrest : ∀ inner rest, args = inner :: rest → Dispatched engine rest)
    {f : Callable} {r : Runtime} (hf : r.heap.callableOf? id = some f)
    (hbody : f.body = .native .apply) (this : Value) : ∃ runs entries outcome after,
    r.heap.Calls (.object id) this args (⟨id, f.boundThis.getD this, args⟩ :: runs) entries ∧
    after.engineCalls = r.engineCalls + counted engine entries ∧
    ∀ moment, Runs (innerCall engine args (f.boundThis.getD this))
      (innerNoted moment engine args (f.boundThis.getD this)) (r.holding f.references) outcome
      (moment.pick runs entries) after := by
  cases args with
  | nil =>
    refine ⟨[], [], .error (.notCallable .undefined), r.holding f.references, .idle hf hbody, ?_,
      fun moment => ?_⟩
    · rw [counted_nil]
      rfl
    · rw [pick_nil]
      exact .lift rfl
  | cons inner rest =>
    obtain ⟨runs, entries, outcome, after, hcalls, hnoted, hcounted⟩ :=
      hrest inner rest rfl inner (f.boundThis.getD this) (r.holding f.references)
    exact ⟨runs, entries, outcome, after, .applied hf hbody (hcalls.congr fun x =>
      Runtime.callableOf?_holding.symm), hcounted, hnoted⟩

/-- One call, if the calls inside it are dispatched. -/
theorem dispatched_of_rest (hrest : ∀ inner rest, args = inner :: rest → Dispatched engine rest) :
    Dispatched engine args := by
  intro callee this r
  cases hf : r.heap.callable? callee with
  | none =>
    refine ⟨[], [], .error (.notCallable callee), r.holding callee.references, .refused hf,
      fun moment => ?_, ?_⟩
    · rw [call_eq, pick_nil]
      exact .of_not_callable hf
    · rw [counted_nil]
      rfl
  | some f =>
    obtain ⟨id, rfl, hf⟩ := Heap.exists_callableOf? hf
    by_cases hbody : f.body = .native .apply
    · obtain ⟨runs, entries, _, middle, hcalls, hcounted, hinner⟩ :=
        exists_innerCall hrest hf hbody this
      obtain ⟨thrown, after, hsame, hrun⟩ := exists_runs_of_apply hbody hinner
      exact ⟨_, entries, thrown, _, dispatches_of_ran hf hcalls hrun (hsame.trans hcounted)⟩
    · have hcounted := engineCalls_runBody engine f ⟨id, f.boundThis.getD this, args⟩
        (r.holding f.references)
      exact ⟨_, _, _, _, dispatches_of_ran hf (.ran hf hbody) (runs_of_body hbody rfl) hcounted⟩

/-- **Every call is dispatched**, by induction on the arguments: a native function that calls another
one hands on fewer than it was given. -/
theorem dispatched (engine : Engine) (args : List Value) : Dispatched engine args := by
  induction args with
  | nil =>
    refine dispatched_of_rest fun inner rest he => ?_
    cases he
  | cons first others ih =>
    refine dispatched_of_rest fun inner rest he => ?_
    obtain ⟨_, rfl⟩ := List.cons.inj he
    exact ih

end RunM

end ScriptCore
