import ScriptCore.Proofs.Agreement.StoreSteps
import ScriptCore.Session.Functions

/-!
# Steps about functions on sessions that agree

A function is made from a body whose links the session holds, and a call hands its outcome, a value
or an error, to the step. The identities of bodies and closures are drawn from the session, so that
they are the same on both sides.
-/

namespace ScriptCore

namespace FunctionRequest

def asksOrder : FunctionRequest → Bool
  | .order .. => true
  | _ => false

open StepM

variable [History] {s t : Session} {extra more : List Link} {v : Value} {id : NodeId}
  {engine : Engine}

/-! ## Bodies -/

theorem runFreshIdentity (ha : Session.Agree extra s t) :
    Alike freshIdentity freshIdentity s t more fun _ s' t' =>
      Session.Agree extra s' t' ∧ s'.links = s.links := by
  obtain ⟨r, rfl⟩ := ha.exists_runtime
  exact ⟨rfl, ha.change (List.Perm.refl _) rfl rfl rfl ha.distinct, rfl⟩

theorem runScriptOf (code : String) (label : Option String) (ha : Session.Agree extra s t) :
    Alike (script code label) (script code label) s t more fun _ s' t' =>
      Session.Agree extra s' t' ∧ s'.links = s.links := by
  have hscripts : t.scripts = s.scripts := by
    rw [← ha.same]
  refine Alike.get_bind ?_
  rw [hscripts]
  cases label.bind s.scripts.get? with
  | some body => exact Alike.pure ⟨ha, rfl⟩
  | none =>
    refine (runFreshIdentity ha).bind fun identity s₁ t₁ ⟨ha, hl⟩ => ?_
    cases label with
    | none => exact Alike.skip_bind (Alike.pure ⟨ha, hl⟩)
    | some name =>
      obtain ⟨r, rfl⟩ := ha.exists_runtime
      exact ⟨rfl, ha.change (List.Perm.refl _) rfl rfl rfl ha.distinct, hl⟩

/-- What a body refers to is held by the session. -/
theorem runMakeBody (spec : BodySpec) (ha : Session.Agree extra s t) :
    Alike (makeBody spec) (makeBody spec) s t extra fun body s' t' =>
      Session.Agree extra s' t' ∧ body.links ⊆ s'.links := by
  cases spec with
  | native code => exact Alike.pure ⟨ha, List.nil_subset _⟩
  | closure kind l =>
    refine (runTake l ha).bind fun v s₁ t₁ hq => ?_
    obtain ⟨ha, _, hv⟩ := hq
    refine (runFreshIdentity ha).bind fun identity s₂ t₂ hq => Alike.heap_bind ?_
    obtain ⟨ha, hl⟩ := hq
    have hv : v.links ⊆ s₂.links := hl ▸ hv
    rw [ha.heap.closure_eq kind (sees_taken hv)]
    refine Alike.pure ⟨ha, ?_⟩
    cases kind with
    | counter => exact List.nil_subset _
    | const | raise | record => exact hv
  | interpreted code label scope =>
    refine (runScope scope ha).bind fun id s₁ t₁ hq => ?_
    obtain ⟨ha, _, hid⟩ := hq
    refine (runScriptOf code label ha).bind fun body s₂ t₂ hq => Alike.pure ⟨hq.1, ?_⟩
    obtain ⟨ha, hl⟩ := hq
    intro l hm
    obtain rfl : l = .scope id := List.mem_singleton.mp hm
    exact hl ▸ hid
  | compiled code => exact Alike.pure ⟨ha, List.nil_subset _⟩

/-! ## Calls -/

/-- **The outcome of a call** is the outcome of the step. -/
theorem runCalled {m : RunM (Except Error Value)} (ha : Session.Agree extra s t)
    (hm : Together m m s.runtime t.runtime fun a r r' =>
      Runtime.Agree (outcomeLinks a ++ (extra ++ s.links)) r r') :
    PerformsAlike (onRuntime m >>= called) (onRuntime m >>= called) s t extra := by
  refine (Alike.onRuntime_add outcomeLinks ha hm).bind fun outcome s₁ t₁ ⟨ha, _⟩ => ?_
  exact (Alike.orFail ha).bind fun v s₂ t₂ ⟨ha, _⟩ => Alike.pure ha

theorem runDone {m : RunM (Except Error Unit)} (ha : Session.Agree extra s t)
    (hid : .object id ∈ s.links)
    (hm : Together m m s.runtime t.runtime fun a r r' =>
      Runtime.Agree (resultLinks (fun _ => []) a ++ (extra ++ s.links)) r r') :
    PerformsAlike (do orFail (← onRuntime m); factOf "on" (.object id))
      (do orFail (← onRuntime m); factOf "on" (.object id)) s t extra := by
  refine (Alike.onRuntime_add (resultLinks fun _ => []) ha hm).bind
    fun outcome s₁ t₁ ⟨ha, hl⟩ => ?_
  refine (Alike.orFail ha).bind fun _ s₂ t₂ ⟨ha, hs⟩ => ?_
  have hid : Link.object id ∈ s₂.links := hs ▸ hl ▸ hid
  exact runFactOf "on" ha (sees_object hid).value

/-! ## Facts -/

theorem performsAlike_create (name : String) (params : List String) (isConstructor : Bool)
    (spec : BodySpec) (ha : Session.Agree extra s t) :
    PerformsAlike (create name params isConstructor spec).perform
      (create name params isConstructor spec).perform s t extra := by
  refine (runMakeBody spec ha).bind fun body s₁ t₁ hq => ?_
  obtain ⟨ha, hbody⟩ := hq
  have hnew := ha.heap.runNewFunction (f := ⟨name, params, isConstructor, none, body⟩)
    fun l hl => List.mem_append_right _ (hbody hl)
  exact (Alike.onHeap_add (fun id => [.object id]) ha (hnew.mono fun _ _ _ hq => hq.1)).bind
    fun id s₂ t₂ hq => Alike.pure hq.1

def tellBound (id : NodeId) : StepM Outcome := do
  let h ← .heap
  .fact "bound" (h.snapshot? ((h.callableOf? id).bind Callable.boundThis))

theorem runTellBound (ha : Session.Agree extra s t) (hid : .object id ∈ s.links) :
    PerformsAlike (tellBound id) (tellBound id) s t extra := by
  refine Alike.heap_bind ?_
  have hsees : s.heap.Sees (extra ++ s.links) (.object id) := sees_object hid
  have hbound : ∀ v, (s.heap.callableOf? id).bind Callable.boundThis = some v →
      s.heap.SeesValue (extra ++ s.links) v := by
    intro v hv l hm
    obtain ⟨f, hf, hv⟩ := Option.bind_eq_some_iff.mp hv
    refine Heap.Agree.sees_callableOf? hsees hf l (List.mem_append_left _ ?_)
    rw [hv]
    exact List.mem_append_left _ hm
  refine runFact "bound" ha ?_
  show t.heap.snapshot? _ = s.heap.snapshot? _
  rw [ha.heap.callableOf?_eq hsees, ha.heap.snapshot?_eq hbound]

omit [History] in
theorem perform_bindThis (on this : Literal) :
    (bindThis on this).perform = makeBinding on this >>= fun a =>
      StepM.onHeap (HeapM.bindThis a.1 a.2) >>= fun r => orFail r >>= fun _ => tellBound a.1 := by
  simp only [makeBinding, bind_assoc, pure_bind]
  rfl

theorem runMakeBinding (on this : Literal) (ha : Session.Agree extra s t) :
    Alike (makeBinding on this) (makeBinding on this) s t extra fun a s' t' =>
      Session.Agree extra s' t' ∧ .object a.1 ∈ s'.links ∧ a.2.links ⊆ s'.links := by
  refine (runTakeObject on ha).bind fun id s₁ t₁ ⟨ha, _, hid⟩ => ?_
  refine (runTake this ha).bind fun v s₂ t₂ ⟨ha, hs, hv⟩ => ?_
  exact Alike.pure ⟨ha, hs hid, hv⟩

theorem performsAlike_bindThis (on this : Literal) (ha : Session.Agree extra s t)
    (hbind : ∀ {id v h k}, s.binding? (.function (bindThis on this)) = some (id, v) →
      Heap.Bind id v h k → History.Admits h → History.Admits k) :
    PerformsAlike (bindThis on this).perform (bindThis on this).perform s t extra := by
  rw [perform_bindThis]
  refine (runMakeBinding on this ha).bind_across (fun a s₁ t₁ hrun hq => ?_) fun _ _ _ _ => id
  obtain ⟨ha, hid, hthis⟩ := hq
  refine (Alike.onHeap_add (resultLinks fun _ => []) ha (ha.heap.runBindThis (sees_object hid)
    (sees_taken hthis) (hbind (Session.binding?_of_ok hrun)))).bind fun r s₂ t₂ ⟨ha, hl⟩ => ?_
  refine (Alike.orFail ha).bind fun _ s₃ t₃ ⟨ha, hs⟩ => ?_
  exact runTellBound ha (hs ▸ hl ▸ hid)

theorem performsAlike_order (a b : Literal) (ha : Session.Agree extra s t)
    (hp : History.TellsPlaces) :
    PerformsAlike (order a b).perform (order a b).perform s t extra := by
  refine (runTakeObject a ha).bind fun x s₁ t₁ ⟨ha, _, hx⟩ => ?_
  refine (runTakeObject b ha).bind fun y s₂ t₂ ⟨ha, hs, hy⟩ => Alike.heap_bind ?_
  rw [ha.heap.callableOf?_eq (sees_object (hs hx)), ha.heap.callableOf?_eq (sees_object hy),
    hp ha.heap.leftAdmits ha.heap.rightAdmits]
  split
  · exact runFacts ha rfl
  · exact Alike.fail ha

theorem endsAlike (r : FunctionRequest) (ha : Session.Agree extra s t) (hr : r.asksOrder = true) :
    EndsAlike r.perform r.perform s t extra := by
  obtain ⟨a, b, rfl⟩ : ∃ a b, r = .order a b := by
    cases r with
    | order a b => exact ⟨a, b, rfl⟩
    | _ => cases hr
  refine (runTakeObject a ha).bindEnds fun x s₁ t₁ hq => ?_
  obtain ⟨ha, _, hx⟩ := hq
  refine (runTakeObject b ha).bindEnds fun y s₂ t₂ hq => endsAlike_heap_bind ?_
  obtain ⟨ha, hs, hy⟩ := hq
  rw [ha.heap.callableOf?_eq (sees_object (hs hx)), ha.heap.callableOf?_eq (sees_object hy)]
  split
  · exact endsAlike_facts ha _ _
  · exact PerformsAlike.endsAlike (Alike.fail ha)

theorem performsAlike_isInstance (a b : Literal) (ha : Session.Agree extra s t) :
    PerformsAlike (isInstance a b).perform (isInstance a b).perform s t extra := by
  refine runTakeTwo_bind a b ha fun v w s₁ t₁ ha hv hw => Alike.heap_bind (runFacts ha ?_)
  rw [ha.heap.isInstance_eq hv hw]
  cases v with
  | object x =>
    cases w with
    | object y => simp only [ha.heap.isInstanceOf_eq hv.object]
    | _ => rfl
  | _ => rfl

def makeCopy (on : Literal) (scope : String) : StepM (NodeId × NodeId) := do
  let id ← .takeObject on
  let scope ← .scope scope
  return (id, scope)

omit [History] in
theorem perform_copyCompiled (on : Literal) (scope : String) :
    (copyCompiled on scope).perform = makeCopy on scope >>= fun a =>
      StepM.onHeap (HeapM.copyCompiled a.1 a.2) >>= fun r => orFail r >>= fun copy =>
        pure (.value (.object copy)) := by
  simp only [makeCopy, bind_assoc, pure_bind]
  rfl

theorem runMakeCopy (on : Literal) (scope : String) (ha : Session.Agree extra s t) :
    Alike (makeCopy on scope) (makeCopy on scope) s t extra fun a s' t' =>
      Session.Agree extra s' t' ∧ .object a.1 ∈ s'.links ∧ .scope a.2 ∈ s'.links := by
  refine (runTakeObject on ha).bind fun id s₁ t₁ ⟨ha, _, hid⟩ => ?_
  refine (runScope scope ha).bind fun x s₂ t₂ ⟨ha, hl, hx⟩ => Alike.pure ⟨ha, hl ▸ hid, hx⟩

theorem performsAlike_copyCompiled (on : Literal) (scope : String) (ha : Session.Agree extra s t) :
    PerformsAlike (copyCompiled on scope).perform (copyCompiled on scope).perform s t extra := by
  rw [perform_copyCompiled]
  refine (runMakeCopy on scope ha).bind fun a s₁ t₁ ⟨ha, hid, hx⟩ => ?_
  have hcopy := ha.heap.runCopyCompiled (sees_object hid) (List.mem_append_right _ hx)
  refine (Alike.onHeap_add (resultLinks fun copy => [.object copy]) ha hcopy).bind
    fun r s₂ t₂ ⟨ha, _⟩ => ?_
  exact (Alike.orFail ha).bind fun copy s₃ t₃ ⟨ha, _⟩ => Alike.pure ha

/-! ## Requests -/

/-- **Steps about functions** perform the same on both sides. -/
theorem performsAlike (r : FunctionRequest) (ha : Session.Agree extra s t)
    (hs : s.Allows (.function r)) (hp : r.asksOrder = true → History.TellsPlaces) :
    PerformsAlike r.perform r.perform s t extra := by
  cases r with
  | create name params isConstructor spec =>
    exact performsAlike_create name params isConstructor spec ha
  | call engine on this args =>
    refine (runTake on ha).bind fun on s₁ t₁ hq => ?_
    obtain ⟨ha, _, hon⟩ := hq
    refine (runTake this ha).bind fun this s₂ t₂ hq => ?_
    obtain ⟨ha, hs₂, hthis⟩ := hq
    refine (runTakeAll args ha).bind fun args s₃ t₃ hq => ?_
    obtain ⟨ha, hs₃, hargs⟩ := hq
    refine runCalled ha (Runtime.Agree.runCall engine args ha.runtime ?_ ?_ ?_)
    · exact fun l hl => List.mem_append_right _ (hs₃ (hs₂ (hon hl)))
    · exact fun l hl => List.mem_append_right _ (hs₃ (hthis hl))
    · exact fun l hl => List.mem_append_right _ (hargs hl)
  | bindThis on this => exact performsAlike_bindThis on this ha hs.bind
  | info on =>
    refine (runTakeObject on ha).bind fun id s₁ t₁ hq => Alike.heap_bind ?_
    obtain ⟨ha, _, hid⟩ := hq
    rw [ha.heap.callableOf?_eq (sees_object hid)]
    exact runFacts ha rfl
  | order a b => exact performsAlike_order a b ha (hp rfl)
  | copyCompiled on scope => exact performsAlike_copyCompiled on scope ha
  | isInstance a b => exact performsAlike_isInstance a b ha
  | toTemplate on =>
    refine (runTakeObject on ha).bind fun id s₁ t₁ hq => Alike.heap_bind ?_
    obtain ⟨ha, _, hid⟩ := hq
    rw [ha.heap.template?_eq (sees_object hid)]
    exact runFact "template" ha rfl
  | fromTemplate text =>
    unfold perform
    dsimp only
    cases Template.ofText text with
    | none => exact Alike.fail ha
    | some template =>
      exact (Alike.onHeap_add (fun id => [.object id]) ha
        (ha.heap.runNewFromTemplate template)).bind fun id s₁ t₁ hq => Alike.pure hq.1
  | engineCalls =>
    refine Alike.get_bind (runFact "calls" ha ?_)
    rw [ha.runtime.engineCalls]
  | addGetter on l key =>
    refine (runTakeObject on ha).bind fun id s₁ t₁ hq => ?_
    obtain ⟨ha, _, hid⟩ := hq
    refine (runTakeObject l ha).bind fun getter s₂ t₂ hq => ?_
    obtain ⟨ha, hs, hgetter⟩ := hq
    have hid : Link.object id ∈ s₂.links := hs hid
    have hadd := ha.heap.runAddGetter (sees_object hid) (sees_object hgetter) key
    refine (runQuietly ha (hadd.mono fun _ _ _ hr => hr.1)).bind
      fun _ s₃ t₃ hq => Alike.heap_bind (runFacts hq.1 ?_)
    obtain ⟨ha, hl⟩ := hq
    exact ha.heap.accessors_eq (sees_object (hl ▸ hid)) key
  | addSetter on l key =>
    refine (runTakeObject on ha).bind fun id s₁ t₁ hq => ?_
    obtain ⟨ha, _, hid⟩ := hq
    refine (runTakeObject l ha).bind fun setter s₂ t₂ hq => ?_
    obtain ⟨ha, hs, hsetter⟩ := hq
    have hid : Link.object id ∈ s₂.links := hs hid
    have hadd := ha.heap.runAddSetter (sees_object hid) (sees_object hsetter) key
    refine (runQuietly ha (hadd.mono fun _ _ _ hr => hr.1)).bind
      fun _ s₃ t₃ hq => Alike.heap_bind (runFacts hq.1 ?_)
    obtain ⟨ha, hl⟩ := hq
    exact ha.heap.accessors_eq (sees_object (hl ▸ hid)) key
  | findGetter on key =>
    refine (runTakeObject on ha).bind fun id s₁ t₁ hq => Alike.heap_bind ?_
    obtain ⟨ha, _, hid⟩ := hq
    rw [ha.heap.findGetter?_eq (sees_object hid)]
    exact runValueOf ha (Heap.seesValue_ofOption fun getter hg =>
      ha.heap.sees_findGetter? (sees_object hid) hg)
  | findSetter on key =>
    refine (runTakeObject on ha).bind fun id s₁ t₁ hq => Alike.heap_bind ?_
    obtain ⟨ha, _, hid⟩ := hq
    rw [ha.heap.findSetter?_eq (sees_object hid)]
    exact runValueOf ha (Heap.seesValue_ofOption fun setter hg =>
      ha.heap.sees_findSetter? (sees_object hid) hg)
  | getProperty engine on key =>
    refine (runTakeObject on ha).bind fun id s₁ t₁ hq => ?_
    obtain ⟨ha, _, hid⟩ := hq
    exact runCalled ha (ha.runtime.runGetProperty (List.mem_append_right _ hid))
  | callGetter engine on key =>
    refine (runTakeObject on ha).bind fun id s₁ t₁ hq => ?_
    obtain ⟨ha, _, hid⟩ := hq
    exact runCalled ha (ha.runtime.runCallGetter (List.mem_append_right _ hid))
  | setProperty engine on l key =>
    refine (runTakeObject on ha).bind fun id s₁ t₁ hq => ?_
    obtain ⟨ha, _, hid⟩ := hq
    refine (runTake l ha).bind fun v s₂ t₂ hq => ?_
    obtain ⟨ha, hs, hv⟩ := hq
    exact runDone ha (hs hid) (ha.runtime.runSetProperty (List.mem_append_right _ (hs hid))
      fun l hl => List.mem_append_right _ (hv hl))
  | callSetter engine on l key =>
    refine (runTakeObject on ha).bind fun id s₁ t₁ hq => ?_
    obtain ⟨ha, _, hid⟩ := hq
    refine (runTake l ha).bind fun v s₂ t₂ hq => ?_
    obtain ⟨ha, hs, hv⟩ := hq
    exact runDone ha (hs hid) (ha.runtime.runCallSetter (List.mem_append_right _ (hs hid))
      fun l hl => List.mem_append_right _ (hv hl))

end FunctionRequest

end ScriptCore
