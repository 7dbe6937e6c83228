import ScriptCore.Proofs.Calls.Accesses
import ScriptCore.Proofs.Session.Binding

/-!
# Dispatch in a session

Five requests may get a function called: to call a value, and to read or write a property or to call
its accessor. Such a request makes its literals and performs its access (`Session.perform_of_access?`),
which makes one call at most. `Session.invocations` writes down what all the calls of a run come to,
calls inside calls included: when a function is run, or when the engine is entered.

A function that is bound runs with the value that it was bound to first in every run from there on
(`Session.runsWith`), and so does a copy of it. The main result puts this together with what a call comes
to (`Session.first_bind_lasts`).
-/

namespace ScriptCore

namespace FunctionRequest

def makeAccess? : FunctionRequest → Option (StepM Access)
  | .call engine on this args => some do
    let on ← .take on
    let this ← .take this
    let args ← .takeAll args
    return .call ⟨engine, on, this, args⟩
  | .getProperty engine on key => some do
    let id ← .takeObject on
    return .getProperty engine id key
  | .callGetter engine on key => some do
    let id ← .takeObject on
    return .callGetter engine id key
  | .setProperty engine on v key => some do
    let id ← .takeObject on
    let v ← .take v
    return .setProperty engine id key v
  | .callSetter engine on v key => some do
    let id ← .takeObject on
    let v ← .take v
    return .callSetter engine id key v
  | _ => none

end FunctionRequest

namespace Access

/-- What an access answers: the value, or how the object that was written to is shown. -/
def answer : Access → Value → StepM Outcome
  | .setProperty .., v | .callSetter .., v => .factOf "on" v
  | _, v => return .value v

def perform (access : Access) : StepM Outcome := do
  access.answer (← .orFail (← StepM.onRuntime access.run))

end Access

namespace StepM

theorem onRuntime_map {α β : Type} (g : α → β) (m : RunM α) :
    onRuntime (g <$> m) = g <$> onRuntime m := rfl

theorem orFail_map_bind {α β γ : Type} (g : α → β) (result : Except Error α) (f : β → StepM γ) :
    orFail (result.map g) >>= f = orFail result >>= fun a => f (g a) := by
  cases result <;> rfl

end StepM

namespace FunctionRequest

/-- **A request performs its access**, and nothing else but making its literals first. -/
theorem perform_of_makeAccess? {r : FunctionRequest} {make : StepM Access}
    (hmake : r.makeAccess? = some make) : r.perform = make >>= Access.perform := by
  cases r with
  | call | getProperty | callGetter =>
    obtain rfl := Option.some.inj hmake
    simp only [bind_assoc, pure_bind]
    rfl
  | setProperty | callSetter =>
    obtain rfl := Option.some.inj hmake
    simp only [bind_assoc, pure_bind, Access.perform, Access.run, StepM.onRuntime_map, bind_map_left,
      StepM.orFail_map_bind]
    rfl
  | _ => cases hmake

end FunctionRequest

namespace FunctionRequest

open StepM

variable [History] {s t : Session} {extra : List Link}

/-- What an access is about is held by the session. -/
theorem runMakeAccess {r : FunctionRequest} {make : StepM Access}
    (hmake : r.makeAccess? = some make) (ha : Session.Agree extra s t) :
    Alike make make s t extra fun access s' t' =>
      Session.Agree extra s' t' ∧ access.links ⊆ s'.links := by
  cases r with
  | call engine on this args =>
    obtain rfl := Option.some.inj hmake
    refine (runTake on ha).bind fun on s₁ t₁ ⟨ha, _, hon⟩ => ?_
    refine (runTake this ha).bind fun this s₂ t₂ ⟨ha, hs₂, hthis⟩ => ?_
    refine (runTakeAll args ha).bind fun args s₃ t₃ ⟨ha, hs₃, hargs⟩ => Alike.pure ⟨ha, ?_⟩
    refine List.append_subset.mpr ⟨List.append_subset.mpr ⟨?_, ?_⟩, hargs⟩
    · exact fun l hl => hs₃ (hs₂ (hon hl))
    · exact fun l hl => hs₃ (hthis hl)
  | getProperty engine on key | callGetter engine on key =>
    obtain rfl := Option.some.inj hmake
    refine (runTakeObject on ha).bind fun id s₁ t₁ ⟨ha, _, hid⟩ => Alike.pure ⟨ha, ?_⟩
    exact fun l hl => List.mem_singleton.mp hl ▸ hid
  | setProperty engine on l key | callSetter engine on l key =>
    obtain rfl := Option.some.inj hmake
    refine (runTakeObject on ha).bind fun id s₁ t₁ ⟨ha, _, hid⟩ => ?_
    refine (runTake l ha).bind fun v s₂ t₂ ⟨ha, hs, hv⟩ => Alike.pure ⟨ha, ?_⟩
    exact List.cons_subset.mpr ⟨hs hid, hv⟩
  | _ => cases hmake

end FunctionRequest

namespace Session

/-! ## The calls of a session -/

/-- The access that a request makes, with the session in which its literals are made. -/
def access? (s : Session) : Request → Option (Access × Session)
  | .function r => r.makeAccess?.bind fun make =>
    match make.run.run s with
    | (.ok access, s₁) => some (access, s₁)
    | (.error _, _) => none
  | _ => none

/-- What is written down of the calls that a request makes. -/
def invoked (s : Session) (moment : Moment) (r : Request) : List Invocation :=
  match s.access? r with
  | some (access, s₁) => access.record moment s₁.runtime
  | none => []

def invocations (s : Session) (moment : Moment) : List Step → List Invocation
  | [] => []
  | step :: rest => s.invoked moment step.request ++ (s.step step).2.invocations moment rest

variable {s s₁ : Session} {r : Request} {step : Step} {access : Access} {id : NodeId}
  {b : Option Value} {v : Value} {moment : Moment}

theorem exists_make_of_access? (hr : s.access? r = some (access, s₁)) : ∃ f make,
    r = .function f ∧ f.makeAccess? = some make ∧ make.run.run s = (.ok access, s₁) := by
  cases r with
  | function f =>
    obtain ⟨make, hmake, hrun⟩ := Option.bind_eq_some_iff.mp hr
    refine ⟨f, make, rfl, hmake, ?_⟩
    split at hrun
    · next heq =>
      obtain ⟨rfl, rfl⟩ := Prod.mk.inj (Option.some.inj hrun)
      exact heq
    · cases hrun
  | _ => cases hr

/-- **A request performs its access** in the session where its literals are made. -/
theorem perform_of_access? (hr : s.access? r = some (access, s₁)) :
    r.perform.run.run s = access.perform.run.run s₁ := by
  obtain ⟨f, make, rfl, hmake, hrun⟩ := exists_make_of_access? hr
  show f.perform.run.run s = _
  rw [FunctionRequest.perform_of_makeAccess? hmake, StepM.run_bind_of_ok hrun]

theorem agree_of_access? [History] (ha : Agree [] s s) (hr : s.access? r = some (access, s₁)) :
    Agree [] s₁ s₁ ∧ access.links ⊆ s₁.links := by
  obtain ⟨f, make, rfl, hmake, hrun⟩ := exists_make_of_access? hr
  exact (FunctionRequest.runMakeAccess hmake ha).of_ok hrun

theorem bound_access (ha : Agree [] s s) (hb : s.heap.HasBound id b)
    (hr : s.access? r = some (access, s₁)) : s₁.heap.HasBound id b := by
  let history : History := .bound id b
  have hstart : Agree [] s s := ha.knowing hb hb
  exact (agree_of_access? hstart hr).1.heap.leftAdmits

/-- **A request comes to the call that its access makes.** -/
theorem exists_comesTo {c : Calling} (ha : Agree [] s s) (hr : s.access? r = some (access, s₁))
    (hc : access.call? s₁.heap = some c) : ∃ a r',
      RunM.ComesTo access.run access.noted c.engine s₁.runtime c.callee c.this c.args
        (s.invoked .run r) (s.invoked .entry r) a r' := by
  obtain ⟨ha₁, hlinks⟩ := agree_of_access? ha hr
  obtain ⟨runs, entries, a, r', hcall⟩ := access.exists_comesTo ha₁.runtime hlinks hc
  have hruns : s.invoked .run r = runs := by
    rw [invoked, hr]
    exact (hcall.noted .run).record_eq
  have hentries : s.invoked .entry r = entries := by
    rw [invoked, hr]
    exact (hcall.noted .entry).record_eq
  rw [hruns, hentries]
  exact ⟨a, r', hcall⟩

theorem invoked_of_no_call (hr : s.access? r = some (access, s₁))
    (hc : access.call? s₁.heap = none) (moment : Moment) : s.invoked moment r = [] := by
  obtain ⟨a, r', -, hruns⟩ := access.exists_runs_nil hc
  rw [invoked, hr]
  exact (hruns moment).record_eq

/-- **A bound function is run with the value that it is bound to** by whatever a request calls. -/
theorem this_of_invoked (ha : Agree [] s s) (hb : s.heap.HasBound id (some v)) {i : Invocation}
    (hi : i ∈ s.invoked moment r) (hid : i.function = id) : i.this = v := by
  cases hr : s.access? r with
  | none =>
    rw [invoked, hr] at hi
    cases hi
  | some found =>
    obtain ⟨access, s₁⟩ := found
    cases hc : access.call? s₁.heap with
    | none =>
      rw [invoked_of_no_call hr hc] at hi
      cases hi
    | some c =>
      obtain ⟨a, r', hcall⟩ := exists_comesTo ha hr hc
      have hrun : i ∈ s.invoked .run r := by
        cases moment with
        | run => exact hi
        | entry => exact hcall.calls.entries_subset hi
      obtain ⟨f, hf, hthis⟩ := hcall.calls.this_eq hrun
      exact hthis v ((bound_access ha hb hr).boundThis_eq (hid ▸ hf))

/-! ## Runs -/

/-- **From now on** a function is bound to a value, and is run with it, whatever steps follow. -/
def RunsWith (s : Session) (id : NodeId) (v : Value) : Prop :=
  ∀ more : List Step, (s.run more).2.heap.HasBound id (some v) ∧
    ∀ moment, ∀ i ∈ s.invocations moment more, i.function = id → i.this = v

/-- **A bound function runs with the value that it is bound to**, in the first step and in the steps that
follow. -/
theorem runsWith (ha : Agree [] s s) (hb : s.heap.HasBound id (some v)) : s.RunsWith id v := by
  intro more
  refine ⟨bound_run ha hb more (Or.inl (Option.some_ne_none v)), fun moment => ?_⟩
  induction more generalizing s with
  | nil => exact fun i hi => absurd hi List.not_mem_nil
  | cons step rest ih =>
    intro i hi hid
    rcases List.mem_append.mp hi with hi | hi
    · exact this_of_invoked ha hb hi hid
    · have hstep := bound_run ha hb [step] (Or.inl (Option.some_ne_none v))
      exact ih (ha.step step (s.allows_any step.request)) hstep i hi hid

/-- What a request comes to that makes an access. -/
structure Makes (s : Session) (r : Request) (access : Access) (s₁ : Session) : Prop where
  /-- Its literals are made first, and this binds nothing. -/
  performs : r.perform.run.run s = access.perform.run.run s₁
  bound : ∀ id b, s.heap.HasBound id b → s₁.heap.HasBound id b
  /-- Without a call nothing is run. -/
  idle : access.call? s₁.heap = none → ∀ moment, s.invoked moment r = []
  /-- A call is refused, or it comes to what its callee tells. -/
  comes : ∀ c, access.call? s₁.heap = some c → ∃ a r',
    RunM.ComesTo access.run access.noted c.engine s₁.runtime c.callee c.this c.args
      (s.invoked .run r) (s.invoked .entry r) a r'
  /-- A function that is called is run first. -/
  first : ∀ c id f, access.call? s₁.heap = some c → c.callee = .object id →
    s₁.heap.callableOf? id = some f →
      ∃ inner, s.invoked .run r = ⟨id, f.boundThis.getD c.this, c.args⟩ :: inner
  /-- Nothing else is run, unless by `apply`, and the engine is entered exactly once if it has to run the
  function, and not at all otherwise. -/
  once : ∀ c id f, access.call? s₁.heap = some c → c.callee = .object id →
    s₁.heap.callableOf? id = some f → f.body ≠ .native .apply →
      s.invoked .run r = [⟨id, f.boundThis.getD c.this, c.args⟩] ∧
        s.invoked .entry r =
          if f.body.isForEngine then [⟨id, f.boundThis.getD c.this, c.args⟩] else []

theorem makes_of_access? (ha : Agree [] s s) (hr : s.access? r = some (access, s₁)) :
    s.Makes r access s₁ where
  performs := perform_of_access? hr
  bound _ _ hb := bound_access ha hb hr
  idle := invoked_of_no_call hr
  comes _ hc := exists_comesTo ha hr hc
  first c id f hc hcallee hf := by
    obtain ⟨a, r', hcall⟩ := exists_comesTo ha hr hc
    exact ((hcallee ▸ hcall.calls).of_callableOf? hf).1
  once c id f hc hcallee hf := by
    obtain ⟨a, r', hcall⟩ := exists_comesTo ha hr hc
    exact ((hcallee ▸ hcall.calls).of_callableOf? hf).2

/-- **The first bind lasts, and calls are dispatched by it.** -/
structure FirstBindLasts (s : Session) : Prop where
  /-- A function that is bound runs with that value, whatever steps follow. -/
  bound : ∀ id v, s.heap.HasBound id (some v) → s.RunsWith id v
  /-- A function that is not bound is not bound by steps that bind others: its original and its copies,
  for instance. -/
  unbound : ∀ id more, s.heap.HasBound id none → id ∉ (s.bindings more).map Prod.fst →
    (s.run more).2.heap.HasBound id none
  /-- Binding a function is binding it for good, to the value that it is bound to if there is one. This
  changes nothing else, and the second time nothing at all. -/
  bind : ∀ step on this id v s₁ f, step.request = .function (.bindThis on this) →
    (FunctionRequest.makeBinding on this).run.run s = (.ok (id, v), s₁) →
    s₁.heap.callableOf? id = some f →
      ∃ k, (HeapM.bindThis id v).run s₁.heap = (.ok (), k) ∧
        (∀ x, x ≠ id → k.node? x = s₁.heap.node? x) ∧ (f.boundThis.isSome → k = s₁.heap) ∧
        (s.step step).2.RunsWith id (f.boundThis.getD v)
  /-- A copy is a new function that is bound to what the function is bound to. -/
  copy : ∀ step on scope id x s₁ f bytecode bound,
    step.request = .function (.copyCompiled on scope) →
    (FunctionRequest.makeCopy on scope).run.run s = (.ok (id, x), s₁) →
    s₁.heap.callableOf? id = some f → f.body = .compiled bytecode bound →
      ∃ copy k, (HeapM.copyCompiled id x).run s₁.heap = (.ok copy, k) ∧
        Heap.MadeFunction s₁.heap k copy (f.inScope bytecode (some x)) ∧
        (s.step step).2.heap.HasBound copy f.boundThis ∧
        ∀ v, f.boundThis = some v → (s.step step).2.RunsWith copy v
  /-- Calls run what they are to run, and enter the engine for what it is to run. -/
  access : ∀ r access s₁, s.access? r = some (access, s₁) → s.Makes r access s₁

/-- **The first bind lasts in every run.** After any steps, a function that is bound runs with that value
whenever it is called from then on, directly, by accessors or inside other calls, whatever is bound and
copied next; a copy of it does so too. Binding one function binds no other one. And each call comes to
what its callee is to do: the engine is entered once for a function of a script that has its scope, and
a failure of anything else leaves everything as it was. -/
theorem first_bind_lasts (steps : List Step) : (initial.run steps).2.FirstBindLasts := by
  have ha := agree_run steps
  have hstep (step : Step) := ha.step step ((initial.run steps).2.allows_any step.request)
  refine {
    bound := fun id v hb => runsWith ha hb
    unbound := fun id more hb hm => bound_run ha hb more (Or.inr hm)
    bind := fun step on this id v s₁ f hrequest hmake hf => ?_
    copy := fun step on scope id x s₁ f bytecode bound hrequest hmake hf hbody => ?_
    access := fun r access s₁ hr => makes_of_access? ha hr }
  · obtain ⟨k, hbind, hothers, hsame, hbound⟩ := exists_bind ha hrequest hmake hf
    exact ⟨k, hbind, hothers, hsame, runsWith (hstep step) hbound⟩
  · obtain ⟨copy, k, hcopy, hmade, hadmits⟩ :=
      exists_copy (nested_agree steps) hrequest hmake hf hbody
    have hcopied : Heap.HasBound copy (f.inScope bytecode (some x)).boundThis k :=
      .of_callableOf? hmade.callable
    have hbound := hadmits (.bound copy f.boundThis) hcopied
    exact ⟨copy, k, hcopy, hmade, hbound, fun v hv => runsWith (hstep step) (hv ▸ hbound)⟩

/-- A compiled function that is copied, bound, bound again and copied once more. The second copy is a
getter. -/
def copiedAndBound : List Step :=
  [⟨.scope (.create "scope" none), none, none⟩,
    ⟨.scope (.define "scope" (.integer 0) "count" true), none, none⟩,
    ⟨.function (.create "next" [] false (.compiled "count")), some "next", none⟩,
    ⟨.function (.copyCompiled (.register "next") "scope"), some "early", none⟩,
    ⟨.function (.bindThis (.register "next") (.integer 1)), none, none⟩,
    ⟨.function (.bindThis (.register "next") (.integer 2)), none, none⟩,
    ⟨.function (.copyCompiled (.register "next") "scope"), some "late", none⟩,
    ⟨.store (.keep (.object [])), some "point", none⟩,
    ⟨.function (.addGetter (.register "point") (.register "late") "x"), none, none⟩]

def countingFunction (bound : Option Value) (scope : Option NodeId) : Callable :=
  ⟨"next", [], false, bound, .compiled [99, 111, 117, 110, 116] scope⟩

/-- The function and its second copy are bound to the first value for good, and the getter is run with
that and not with the object. The first copy is run with what it is called with. -/
theorem first_bind_lasts_copied :
    let s := (initial.run copiedAndBound).2
    s.RunsWith 5 (.integer 1) ∧ s.RunsWith 9 (.integer 1) ∧
      s.invoked .entry (.function (.getProperty .evaluator (.register "point") "x")) =
        [⟨9, .integer 1, []⟩] ∧
      s.invoked .entry (.function (.call .evaluator (.register "early") (.integer 3) [])) =
        [⟨7, .integer 3, []⟩] := by
  intro s
  have hlasts : s.FirstBindLasts := first_bind_lasts copiedAndBound
  have hbound {id : NodeId} (v : Value) (scope : Option NodeId)
      (hf : s.heap.callableOf? id = some (countingFunction (some v) scope)) : s.RunsWith id v :=
    hlasts.bound id v (.of_callableOf? hf)
  have hentry {r : Request} {id : NodeId} (bound : Option Value) (this : Value)
      (hc : (s.access? r).bind (fun a => a.1.call? a.2.heap) =
        some ⟨.evaluator, .object id, this, []⟩)
      (hf : (s.access? r).bind (fun a => a.2.heap.callableOf? id) =
        some (countingFunction bound (some 0))) :
      s.invoked .entry r = [⟨id, bound.getD this, []⟩] := by
    obtain ⟨⟨access, s₁⟩, hr, hc⟩ := Option.bind_eq_some_iff.mp hc
    rw [hr, Option.bind_some] at hf
    exact ((hlasts.access r access s₁ hr).once _ id _ hc rfl hf (by simp [countingFunction])).2
  exact ⟨hbound (.integer 1) none (by decide +kernel),
    hbound (.integer 1) (some 0) (by decide +kernel),
    hentry (some (.integer 1)) (.object 11) (by decide +kernel) (by decide +kernel),
    hentry none (.integer 3) (by decide +kernel) (by decide +kernel)⟩

end Session

end ScriptCore
