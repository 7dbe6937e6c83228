import ScriptCore.Proofs.Agreement.Bodies

/-!
# Calls on runtimes that agree

Two runtimes agree if their heaps do and as many calls have reached the evaluator. A call keeps them
so (`runCall`), by induction on the arguments: a native function that calls another one hands on
fewer arguments than it was given. Reading and writing properties through accessors follows.
-/

namespace ScriptCore

namespace Runtime

/-- Runtimes that cannot be told apart from the links held on their heaps. -/
structure Agree [History] (links : List Link) (r s : Runtime) : Prop where
  heap : Heap.Agree links r.heap s.heap
  engineCalls : s.engineCalls = r.engineCalls

end Runtime

namespace Together

variable {α β : Type} {r s : Runtime}

theorem onHeap {m n : HeapM α} {Q : α → Heap → Heap → Prop} (hm : Together m n r.heap s.heap Q)
    (he : s.engineCalls = r.engineCalls) :
    Together (RunM.onHeap m) (RunM.onHeap n) r s fun a r' s' =>
      Q a r'.heap s'.heap ∧ s'.engineCalls = r'.engineCalls := ⟨hm.1, hm.2, he⟩

theorem heap_bind {f g : Heap → RunM β} {P : β → Runtime → Runtime → Prop}
    (hf : Together (f r.heap) (g s.heap) r s P) :
    Together (RunM.heap >>= f) (RunM.heap >>= g) r s P :=
  hf

end Together

namespace Runtime.Agree

variable [History] {r s : Runtime} {links : List Link} {f : Callable} {engine : Engine} {id : NodeId}
  {v callee this : Value} {args : List Value} {key : String}

theorem onHeap {α : Type} {m : HeapM α} {held : α → List Link} (ha : Agree links r s)
    (hm : Together m m r.heap s.heap fun a h k => Heap.Agree (held a) h k) :
    Together (RunM.onHeap m) (RunM.onHeap m) r s fun a r' s' => Agree (held a) r' s' :=
  (hm.onHeap ha.engineCalls).mono fun _ _ _ hq => ⟨hq.1, hq.2⟩

theorem perm {more : List Link} (ha : Agree links r s) (hp : links.Perm more) : Agree more r s :=
  ⟨ha.heap.perm hp, ha.engineCalls⟩

theorem runLetGo (ha : Agree (v.links ++ links) r s) :
    Together (RunM.onHeap (HeapM.letGo v)) (RunM.onHeap (HeapM.letGo v)) r s fun _ r' s' =>
      Agree links r' s' := ha.onHeap ha.heap.runLetGo

theorem runLetGo_after {held : List Link} (ha : Agree (held ++ (v.links ++ links)) r s) :
    Together (RunM.onHeap (HeapM.letGo v)) (RunM.onHeap (HeapM.letGo v)) r s fun _ r' s' =>
      Agree (held ++ links) r' s' := by
  have hswap : Agree (v.links ++ (held ++ links)) r s := ha.perm (List.perm_append_comm_assoc ..)
  exact hswap.runLetGo

/-! ## Engines -/

theorem enter (ha : Agree links r s) {m : HeapM (Except Error Value)}
    (hm : Together m m r.heap s.heap fun a h k => Heap.Agree (outcomeLinks a ++ links) h k) :
    Together (RunM.enter engine f m) (RunM.enter engine f m) r s fun a r' s' =>
      Agree (outcomeLinks a ++ links) r' s' := by
  cases engine with
  | nativeOnly => exact Together.pure ha
  | evaluator =>
    refine Together.modify_bind ?_
    have hcounted : Agree links { r with engineCalls := r.engineCalls + 1 }
        { s with engineCalls := s.engineCalls + 1 } :=
      ⟨ha.heap, congrArg (· + 1) ha.engineCalls⟩
    exact hcounted.onHeap hm

/-- **Every kind of body**, other than the native function `apply`. -/
theorem runBody (ha : Agree links r s) (hid : .object id ∈ links)
    (hf : r.heap.callableOf? id = some f) (hheld : f.links ⊆ links) (hthis : this.links ⊆ links)
    (hargs : valueLinks args ⊆ links) :
    Together (RunM.runBody engine id f this args) (RunM.runBody engine id f this args) r s
      fun a r' s' => Agree (outcomeLinks a ++ links) r' s' := by
  have hscope (scope : NodeId) (hm : scope ∈ f.body.tracedReferences) : .scope scope ∈ links := by
    refine hheld (List.mem_append_right _ (List.mem_append_left _ ?_))
    exact List.mem_map_of_mem hm
  unfold RunM.runBody
  split
  · exact ha.onHeap (ha.heap.runNative _ _ hthis hargs)
  · next hbody => exact ha.onHeap (ha.heap.runClosure (.held hid) hf hbody hheld hargs)
  · next hbody =>
    have hclosure := hscope _ (by rw [hbody]; exact List.mem_singleton.mpr rfl)
    exact ha.enter (ha.heap.runInterpreted _ hid hclosure hthis hargs)
  · exact Together.pure ha
  · next hbody =>
    have hclosure := hscope _ (by rw [hbody]; exact List.mem_singleton.mpr rfl)
    exact ha.enter (ha.heap.runIncrement hclosure _)

/-! ## Calls -/

theorem refuse (ha : Agree links r s) (hv : r.heap.SeesValue links callee) :
    Together (RunM.refuse callee) (RunM.refuse callee) r s fun a r' s' =>
      Agree (outcomeLinks a ++ links) r' s' := by
  refine (ha.onHeap (ha.heap.runHold hv)).bind fun _ _ _ ha => Together.pure ?_
  show Agree (Error.links (.notCallable callee) ++ links) _ _
  rwa [Error.links_of_value? (v := callee) rfl]

theorem rethrow {outcome : Except Error Value} (ha : Agree (outcomeLinks outcome ++ links) r s) :
    Together (RunM.rethrow outcome) (RunM.rethrow outcome) r s fun a r' s' =>
      Agree (outcomeLinks a ++ links) r' s' := by
  cases outcome with
  | ok v => exact Together.pure ha
  | error e =>
    have hheap : Heap.Agree (e.links ++ links) r.heap s.heap := ha.heap
    refine (ha.onHeap hheap.runToValue).bind fun v r₁ s₁ ha => Together.pure ?_
    show Agree (Error.links (.thrown v) ++ links) r₁ s₁
    rwa [Error.links_of_value? (v := v) rfl]

def CallsAlike (engine : Engine) (args : List Value) : Prop :=
  ∀ ⦃callee this : Value⦄ ⦃links : List Link⦄ ⦃r s : Runtime⦄, Agree links r s →
    callee.links ⊆ links → this.links ⊆ links → valueLinks args ⊆ links →
      Together (RunM.call engine callee this args) (RunM.call engine callee this args) r s
        fun a r' s' => Agree (outcomeLinks a ++ links) r' s'

/-- One call, if the calls inside it are alike. -/
theorem callsAlike_of_rest (hrest : ∀ inner rest, args = inner :: rest → CallsAlike engine rest) :
    CallsAlike engine args := by
  intro callee this links r s ha hcallee hthis hargs
  have hsees : r.heap.SeesValue links callee := .held hcallee
  unfold RunM.call
  refine Together.heap_bind ?_
  rw [ha.heap.callable?_eq hsees]
  split
  · next id f hid hf =>
    obtain rfl : callee = .object id := by
      cases callee with
      | object other => exact congrArg Value.object (Option.some.inj hid)
      | _ => cases hid
    have hf : r.heap.callableOf? id = some f := hf
    have hcallable := Heap.Agree.sees_callableOf? hsees.object hf
    refine ((ha.heap.runHoldCallable hcallable).onHeap ha.engineCalls).bind
      fun _ r₁ s₁ ⟨⟨hheap, hsame⟩, hcalls⟩ => ?_
    have ha : Agree (f.links ++ links) r₁ s₁ := ⟨hheap, hcalls⟩
    have hf : r₁.heap.callableOf? id = some f := by
      rw [Heap.callableOf?, Heap.object?, hsame]
      exact hf
    have hid : Link.object id ∈ f.links ++ links :=
      List.mem_append_right _ (hcallee (List.mem_singleton.mpr rfl))
    have hbound : (f.boundThis.getD this).links ⊆ f.links ++ links := by
      cases hb : f.boundThis with
      | none => exact fun l hl => List.mem_append_right _ (hthis hl)
      | some v =>
        refine fun l hl => List.mem_append_left _ (List.mem_append_left _ ?_)
        rw [hb]
        exact List.mem_append_left _ hl
    have hheld : valueLinks args ⊆ f.links ++ links := fun l hl =>
      List.mem_append_right _ (hargs hl)
    -- Whatever the outcome, the callable is let go after it.
    have hend (outcome : Except Error Value) {r₂ s₂ : Runtime}
        (ha : Agree (outcomeLinks outcome ++ (f.links ++ links)) r₂ s₂) :
        Together (do RunM.onHeap (HeapM.letGoCallable f); return outcome)
          (do RunM.onHeap (HeapM.letGoCallable f); return outcome) r₂ s₂
          fun a r' s' => Agree (outcomeLinks a ++ links) r' s' := by
      have hswap : Agree (f.links ++ (outcomeLinks outcome ++ links)) r₂ s₂ :=
        ha.perm (List.perm_append_comm_assoc ..)
      exact (hswap.onHeap hswap.heap.runLetGoCallable).bind fun _ _ _ ha => Together.pure ha
    dsimp only
    split
    · split
      · refine (ha.refuse (.scalar rfl)).bind fun outcome r₂ s₂ ha => ?_
        exact ha.rethrow.bind fun outcome r₃ s₃ ha => hend outcome ha
      · next inner rest =>
        have hinner : inner.links ⊆ f.links ++ links := fun l hl =>
          hheld (List.mem_append_left _ hl)
        have hrest' : valueLinks rest ⊆ f.links ++ links := fun l hl =>
          hheld (List.mem_append_right _ hl)
        refine (hrest inner rest rfl ha hinner hbound hrest').bind fun outcome r₂ s₂ ha => ?_
        exact ha.rethrow.bind fun outcome r₃ s₃ ha => hend outcome ha
    · refine (ha.runBody hid hf (List.subset_append_left ..) hbound hheld).bind
        fun outcome r₂ s₂ ha => hend outcome ha
  · exact ha.refuse hsees

/-- **A call keeps runtimes in agreement**, and its outcome is held. -/
theorem runCall (engine : Engine) (args : List Value) : CallsAlike engine args := by
  induction args with
  | nil =>
    refine callsAlike_of_rest fun inner rest he => ?_
    cases he
  | cons first others ih =>
    refine callsAlike_of_rest fun inner rest he => ?_
    obtain ⟨_, rfl⟩ := List.cons.inj he
    exact ih

/-! ## Accessors -/

theorem runCallGetter (ha : Agree links r s) (hid : .object id ∈ links) :
    Together (RunM.callGetter engine id key) (RunM.callGetter engine id key) r s fun a r' s' =>
      Agree (outcomeLinks a ++ links) r' s' := by
  have hsees : r.heap.Sees links (.object id) := .held hid
  unfold RunM.callGetter
  refine Together.heap_bind ?_
  rw [ha.heap.findGetter?_eq hsees]
  cases hg : r.heap.findGetter? id key with
  | none => exact Together.pure ha
  | some getter =>
    have hgetter := (ha.heap.sees_findGetter? hsees hg).value
    refine (ha.onHeap (ha.heap.runHold hgetter)).bind fun _ r₁ s₁ ha => ?_
    have hself : (Value.object id).links ⊆ (Value.object getter).links ++ links := fun l hl =>
      List.mem_append_right _ (List.mem_singleton.mp hl ▸ hid)
    refine (runCall engine [] ha (List.subset_append_left ..) hself (List.nil_subset _)).bind
      fun outcome r₂ s₂ ha => ?_
    exact ha.runLetGo_after.bind fun _ _ _ ha => Together.pure ha

/-- The result of a setter is let go. -/
theorem runCallSetter (ha : Agree links r s) (hid : .object id ∈ links) (hv : v.links ⊆ links) :
    Together (RunM.callSetter engine id key v) (RunM.callSetter engine id key v) r s
      fun a r' s' => Agree (resultLinks (fun _ => []) a ++ links) r' s' := by
  have hsees : r.heap.Sees links (.object id) := .held hid
  unfold RunM.callSetter
  refine Together.heap_bind ?_
  rw [ha.heap.findSetter?_eq hsees]
  cases hg : r.heap.findSetter? id key with
  | none => exact Together.pure ha
  | some setter =>
    have hsetter := (ha.heap.sees_findSetter? hsees hg).value
    refine (ha.onHeap (ha.heap.runHold hsetter)).bind fun _ r₁ s₁ ha => ?_
    have hself : (Value.object id).links ⊆ (Value.object setter).links ++ links := fun l hl =>
      List.mem_append_right _ (List.mem_singleton.mp hl ▸ hid)
    have hargs : valueLinks [v] ⊆ (Value.object setter).links ++ links := fun l hl =>
      List.mem_append_right _ (hv (by simpa [valueLinks] using hl))
    refine (runCall engine [v] ha (List.subset_append_left ..) hself hargs).bind
      fun outcome r₂ s₂ ha => ?_
    refine ha.runLetGo_after.bind fun _ r₃ s₃ ha => ?_
    cases outcome with
    | ok result => exact ha.runLetGo.bind fun _ _ _ ha => Together.pure ha
    | error e => exact Together.pure ha

theorem runGetProperty (ha : Agree links r s) (hid : .object id ∈ links) :
    Together (RunM.getProperty engine id key) (RunM.getProperty engine id key) r s fun a r' s' =>
      Agree (outcomeLinks a ++ links) r' s' := by
  have hsees : r.heap.Sees links (.object id) := .held hid
  unfold RunM.getProperty
  refine Together.heap_bind ?_
  rw [ha.heap.findGetter?_eq hsees, ha.heap.lookupField_eq hsees]
  split
  · exact ha.runCallGetter hid
  · exact ha.onHeap (ha.heap.runAnswer (ha.heap.sees_lookupField hsees key))

theorem runSetProperty (ha : Agree links r s) (hid : .object id ∈ links) (hv : v.links ⊆ links) :
    Together (RunM.setProperty engine id key v) (RunM.setProperty engine id key v) r s
      fun a r' s' => Agree (resultLinks (fun _ => []) a ++ links) r' s' := by
  have hsees : r.heap.Sees links (.object id) := .held hid
  unfold RunM.setProperty
  refine Together.heap_bind ?_
  rw [ha.heap.findSetter?_eq hsees]
  split
  · exact ha.runCallSetter hid hv
  · exact (ha.onHeap (ha.heap.runAssignField hsees (.held hv) key)).bind
      fun _ _ _ ha => Together.pure ha

end Runtime.Agree

end ScriptCore
