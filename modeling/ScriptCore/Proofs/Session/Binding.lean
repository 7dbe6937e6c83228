import ScriptCore.Proofs.Scopes.Copies

/-!
# Bound functions

No move binds a function or changes what it is bound to (`Heap.Move.keepsBound`). Only binding that very
function does, if it is not bound yet (`Heap.Bind.keepsBound`; `Session.bindings` lists what a run
binds). So what a function is bound to stays through every run, and a function that is not bound is not
bound by a run that binds others (`Session.bound_run`).

A step that binds a function fixes the first value (`Session.exists_bind`), and one that copies it makes
a new function, of which everything else is the same (`Session.exists_copy`).
-/

namespace ScriptCore

namespace Heap

variable {h k : Heap} {id other : NodeId} {b : Option Value} {v : Value} {f : Callable}
  {payload : Payload} {name : String}

/-- As long as a node is there this is what it is bound to, if to anything. -/
structure HasBound (id : NodeId) (b : Option Value) (h : Heap) : Prop where
  lt_size : id < h.cells.size
  bound : ∀ {node : Node}, h.node? id = some node → node.boundThis? = b

theorem boundThis?_of_callableOf? (hf : h.callableOf? id = some f) :
    ∃ o, h.node? id = some (.object o) ∧ (Node.object o).boundThis? = f.boundThis := by
  obtain ⟨o, ho, hf⟩ := Option.bind_eq_some_iff.mp hf
  refine ⟨o, object?_eq_some_iff.mp ho, ?_⟩
  rw [Node.boundThis?, hf, Option.bind_some]

theorem HasBound.of_callableOf? (hf : h.callableOf? id = some f) : HasBound id f.boundThis h := by
  obtain ⟨o, hn, hbound⟩ := boundThis?_of_callableOf? hf
  refine ⟨lt_size_of_node? hn, fun {node} hnode => ?_⟩
  obtain rfl := Option.some.inj (hn.symm.trans hnode)
  exact hbound

theorem HasBound.boundThis_eq (hh : HasBound id b h) (hf : h.callableOf? id = some f) :
    f.boundThis = b := by
  obtain ⟨o, hn, hbound⟩ := boundThis?_of_callableOf? hf
  exact hbound.symm.trans (hh.bound hn)

theorem HasBound.of_changes {becomes : NodeId → Node → Node → Prop} (hh : HasBound id b h)
    (hc : Changes becomes h k)
    (hb : ∀ old node, becomes id old node → old.boundThis? = b → node.boundThis? = b) :
    HasBound id b k where
  lt_size := hh.lt_size.trans_le hc.size_le
  bound := hc.carries hh.lt_size hh.bound hb

/-- **Moves leave bound functions alone**, and others unbound. -/
theorem Move.keepsBound (hm : Move h k) (hh : HasBound id b h) : HasBound id b k :=
  hh.of_changes hm.changes fun _ _ hs hold => hs.bound.trans hold

theorem Define.keepsBound (hd : Define other name h k) (hh : HasBound id b h) : HasBound id b k := by
  refine hh.of_changes hd.changes fun old node hb hold => ?_
  rcases hb with rfl | ⟨-, s, c, rfl, rfl⟩ <;> exact hold

theorem Attach.keepsBound (ha : Attach other payload h k) (hh : HasBound id b h) :
    HasBound id b k := by
  refine hh.of_changes ha.changes fun old node hb hold => ?_
  rcases hb with rfl | ⟨-, o, rfl, rfl⟩ <;> exact hold

theorem Detach.keepsBound (hd : Detach other h k) (hh : HasBound id b h) : HasBound id b k := by
  refine hh.of_changes hd.changes fun old node hb hold => ?_
  rcases hb with rfl | ⟨-, o, rfl, rfl⟩ <;> exact hold

/-- **Only a function that is not bound is bound**, and no other one than that. -/
theorem Bind.keepsBound (hbind : Bind other v h k) (hne : b ≠ none ∨ other ≠ id)
    (hh : HasBound id b h) : HasBound id b k := by
  refine hh.of_changes hbind.changes fun old node hb hold => ?_
  rcases hb with rfl | ⟨rfl, o, f, rfl, hf, hnone, rfl⟩
  · exact hold
  · have hunbound : b = none := by
      rw [← hold, Node.boundThis?, Object.callable?, hf]
      exact hnone
    rcases hne with hb | hother
    · exact absurd hunbound hb
    · exact absurd rfl hother

/-- **Binding a function** changes nothing else, and nothing at all if it is bound. -/
theorem exists_run_bindThis (hf : h.callableOf? id = some f) (v : Value) : ∃ k,
    (HeapM.bindThis id v).run h = (.ok (), k) ∧
      k.callableOf? id = some { f with boundThis := some (f.boundThis.getD v) } ∧
      (∀ x, x ≠ id → k.node? x = h.node? x) ∧ (f.boundThis.isSome → k = h) := by
  cases hb : f.boundThis with
  | none =>
    obtain ⟨o, ho, -⟩ := exotic_of_callableOf? hf
    refine ⟨h.setCallable id { f with boundThis := some v }, ?_, ?_, fun x hx => ?_, fun hs => ?_⟩
    · rw [HeapM.bindThis, run_get_bind, hf]
      simp only [hb, Option.isNone_none, if_true]
      rfl
    · rw [setCallable_of_object? ho, callableOf?, setObject, object?_eq_some_iff.mpr
        (node?_setNode_self (object?_eq_some_iff.mp ho))]
      rfl
    · rw [setCallable_of_object? ho]
      exact node?_setNode_ne h _ hx
    · cases hs
  | some w =>
    refine ⟨h, ?_, ?_, fun x _ => rfl, fun _ => rfl⟩
    · rw [HeapM.bindThis, run_get_bind, hf]
      simp only [hb, Option.isNone_some]
      rfl
    · rw [hf, Option.getD_some, ← hb]

end Heap

/-- What is known is what a function is bound to, where this is not changed by what a run binds. -/
abbrev History.bound (id : NodeId) (b : Option Value) : History :=
  ⟨Heap.HasBound id b, fun hm hh => hm.keepsBound hh⟩

namespace Session

/-- What the steps of a run bind, in order: each function with the value. It may be bound already. -/
def bindings (s : Session) : List Step → List (NodeId × Value)
  | [] => []
  | step :: rest => (s.binding? step.request).toList ++ (s.step step).2.bindings rest

variable {s : Session} {id : NodeId} {b : Option Value}

theorem allowsRun_bound (steps : List Step) : ∀ s : Session,
    (b ≠ none ∨ id ∉ (s.bindings steps).map Prod.fst) → @AllowsRun (.bound id b) s steps := by
  induction steps with
  | nil => exact fun _ _ => trivial
  | cons step rest ih =>
    intro s hb
    have hfirst (other : NodeId) (v : Value) (he : s.binding? step.request = some (other, v)) :
        b ≠ none ∨ other ≠ id := by
      refine hb.imp_right fun hm ho => hm ?_
      rw [bindings, List.map_append, he, ho]
      exact List.mem_append_left _ List.mem_cons_self
    refine ⟨@Allows.mk (.bound id b) s step.request (fun _ ha => ha.keepsBound)
      (fun _ hd => hd.keepsBound) (fun _ hd => hd.keepsBound)
      fun {other v h k} he hbind => hbind.keepsBound (hfirst other v he), ih _ ?_⟩
    refine hb.imp_right fun hm hrest => hm ?_
    rw [bindings, List.map_append]
    exact List.mem_append_right _ hrest

/-- **What a function is bound to stays through every run.** A function that is not bound stays so
through a run that does not bind it. -/
theorem bound_run (ha : Agree [] s s) (hb : s.heap.HasBound id b) (more : List Step)
    (hne : b ≠ none ∨ id ∉ (s.bindings more).map Prod.fst) : (s.run more).2.heap.HasBound id b := by
  let history : History := .bound id b
  exact admits_run ha hb (allowsRun_bound more s hne)

/-! ## Binding and copying -/

variable {s₁ : Session} {step : Step} {x : NodeId} {v : Value} {f : Callable} {bytecode : List UInt8}
  {bound : Option NodeId} {on this : Literal} {scope : String}

theorem admits_of_perform {before : History} [History] {extra : List Link} {k : Heap}
    {m : StepM Outcome} (ha : @Agree before [] s₁ s₁) (hk : Heap.Matches (extra ++ s₁.links) k k)
    (hp : History.Admits k)
    (hperform : step.request.perform.run.run s =
      m.run.run { s₁ with runtime := { s₁.runtime with heap := k } })
    (hm : ∀ {t : Session}, t.links = s₁.links → Agree extra t t → StepM.PerformsAlike m m t t []) :
    History.Admits (s.step step).2.heap := by
  have hruntime : Runtime.Agree (extra ++ s₁.links) { s₁.runtime with heap := k }
      { s₁.runtime with heap := k } := ⟨⟨hk, hp, hp⟩, rfl⟩
  exact admits_step hperform (hm rfl (ha.withRuntime hruntime))

/-- **A step that binds a function** changes nothing else, and nothing at all if the function is bound.
It is bound to the first value afterwards. -/
theorem exists_bind (ha : Agree [] s s) (hrequest : step.request = .function (.bindThis on this))
    (hmake : (FunctionRequest.makeBinding on this).run.run s = (.ok (id, v), s₁))
    (hf : s₁.heap.callableOf? id = some f) :
    ∃ k, (HeapM.bindThis id v).run s₁.heap = (.ok (), k) ∧
      (∀ x, x ≠ id → k.node? x = s₁.heap.node? x) ∧ (f.boundThis.isSome → k = s₁.heap) ∧
      (s.step step).2.heap.HasBound id (some (f.boundThis.getD v)) := by
  obtain ⟨ha₁, hid, hv⟩ := (FunctionRequest.runMakeBinding on this ha).of_ok hmake
  obtain ⟨k, hbind, hk, hothers, hsame⟩ := Heap.exists_run_bindThis hf v
  have hmatches : Heap.Matches s₁.links k k := by
    have hagree := (ha₁.heap.runBindThis (StepM.sees_object hid) (StepM.sees_taken hv)
      fun _ _ => trivial).2
    rw [hbind] at hagree
    exact hagree.toMatches
  have hfunction : step.request.perform = (FunctionRequest.bindThis on this).perform := by
    rw [hrequest]
    rfl
  have hok : StepM.orFail (.ok ()) = pure () := rfl
  let history : History := .bound id (some (f.boundThis.getD v))
  refine ⟨k, hbind, hothers, hsame, admits_of_perform (m := FunctionRequest.tellBound id) ha₁ hmatches
    (.of_callableOf? hk) ?_ fun hl ha => FunctionRequest.runTellBound ha (hl ▸ hid)⟩
  rw [hfunction, FunctionRequest.perform_bindThis, StepM.run_bind_of_ok hmake,
    StepM.run_bind_of_ok (StepM.run_onHeap_of_run hbind), hok, pure_bind]

/-- **A step that copies a compiled function.** What is known of the copy when it is made is known
after the step. -/
theorem exists_copy (ha : @Agree .nesting [] s s)
    (hrequest : step.request = .function (.copyCompiled on scope))
    (hmake : (FunctionRequest.makeCopy on scope).run.run s = (.ok (id, x), s₁))
    (hf : s₁.heap.callableOf? id = some f) (hbody : f.body = .compiled bytecode bound) :
    ∃ copy k, (HeapM.copyCompiled id x).run s₁.heap = (.ok copy, k) ∧
      Heap.MadeFunction s₁.heap k copy (f.inScope bytecode (some x)) ∧
      ∀ history : History, history.Admits k → history.Admits (s.step step).2.heap := by
  obtain ⟨ha₁, hh, hid, hx⟩ : Agree [] s₁ s₁ ∧ Heap.Hosted s₁.links s₁.heap ∧
      .object id ∈ s₁.links ∧ .scope x ∈ s₁.links := by
    let history : History := .nesting
    obtain ⟨ha₁, hid, hx⟩ := (FunctionRequest.runMakeCopy on scope ha).of_ok hmake
    exact ⟨ha₁.weaken fun _ _ => trivial, .of_agree ha₁.heap, hid, hx⟩
  obtain ⟨copy, k, hcopy, hk, hmade⟩ := hh.copyCompiled hid hx hf hbody
  have hmatches : Heap.Matches ([.object copy] ++ s₁.links) k k := .refl hk.reachable hk.has
  have hfunction : step.request.perform = (FunctionRequest.copyCompiled on scope).perform := by
    rw [hrequest]
    rfl
  have hok : StepM.orFail (.ok copy) = pure copy := rfl
  refine ⟨copy, k, hcopy, hmade, fun history hp => admits_of_perform
    (m := pure (.value (.object copy))) ha₁ hmatches hp ?_ fun _ ha => .pure ha⟩
  rw [hfunction, FunctionRequest.perform_copyCompiled, StepM.run_bind_of_ok hmake,
    StepM.run_bind_of_ok (StepM.run_onHeap_of_run hcopy), hok, pure_bind]

end Session

end ScriptCore
