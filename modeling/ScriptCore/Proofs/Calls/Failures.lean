import ScriptCore.Proofs.Calls.Dispatch
import ScriptCore.Proofs.Object.Accessors

/-!
# Calls that fail without the engine

A function of the host that fails, a template and a value that is no function leave everything as it was,
scopes included: there is only one handle more if the error carries a value (`call_error`).
-/

namespace ScriptCore

def Error.references (e : Error) : List NodeId := e.links.map Link.target

theorem Error.references_of_value? {e : Error} {v : Value} (hv : e.value? = some v) :
    e.references = v.references := by
  rw [references, links_of_value? hv, v.map_target_links]

theorem refused_inj {σ α : Type} {e cause : Error} {before after : σ}
    (h : ((.error cause : Except Error α), before) = (.error e, after)) :
    cause = e ∧ before = after := by
  obtain ⟨he, hs⟩ := Prod.mk.inj h
  exact ⟨Except.error.inj he, hs⟩

namespace HeapM

variable {h k : Heap} {e : Error} {this : Value} {args : List Value}

/-- **A native function that fails** has done nothing but take hold of what it throws. -/
theorem runNative_error {code : NativeCode} {name : String}
    (hrun : (runNative code name this args).run h = (.error e, k)) :
    k = h.addHandles e.references := by
  have hfails : ∀ {v : Value}, (do hold v; return (.error (.thrown v) : Except Error Value)).run h =
      (.error e, k) → k = h.addHandles e.references := by
    intro v hrun
    obtain ⟨rfl, rfl⟩ := refused_inj hrun
    rw [Error.references_of_value? (v := v) rfl]
  unfold runNative at hrun
  cases code with
  | throw => exact hfails hrun
  | refuse =>
    obtain ⟨rfl, rfl⟩ := refused_inj hrun
    rfl
  | sum =>
    dsimp only at hrun
    split at hrun
    · cases (Prod.mk.inj hrun).1
    · obtain ⟨rfl, rfl⟩ := refused_inj hrun
      rfl
  | _ => cases (Prod.mk.inj hrun).1

/-- **A closure that fails** has done nothing but take hold of what it throws. -/
theorem runClosure_error {id : NodeId} {f : Callable} {identity : Nat} {state : Closure}
    (hrun : (runClosure id f identity state args).run h = (.error e, k)) :
    k = h.addHandles e.references := by
  unfold runClosure at hrun
  cases state with
  | raise captured =>
    obtain ⟨rfl, rfl⟩ := refused_inj hrun
    rw [Error.references_of_value? (v := captured) rfl]
  | _ => cases (Prod.mk.inj hrun).1

end HeapM

namespace RunM

variable {engine : Engine} {id : NodeId} {f : Callable} {callee this : Value} {args : List Value}
  {e : Error} {r r' : Runtime} {held : List NodeId}

/-- **A body that fails** without the engine has done nothing else. -/
theorem runBody_error (hbody : f.body.isForEngine = false)
    (hrun : (runBody engine id f this args).run r = (.error e, r')) :
    r' = r.holding e.references := by
  obtain ⟨name, params, isConstructor, boundThis, body⟩ := f
  unfold runBody at hrun
  cases body with
  | native code =>
    obtain ⟨he, rfl⟩ := Prod.mk.inj hrun
    exact congrArg (fun heap => { r with heap := heap }) (HeapM.runNative_error (Prod.ext he rfl))
  | closure identity state =>
    obtain ⟨he, rfl⟩ := Prod.mk.inj hrun
    exact congrArg (fun heap => { r with heap := heap }) (HeapM.runClosure_error (Prod.ext he rfl))
  | interpreted script scope => cases hbody
  | compiled bytecode scope =>
    cases scope with
    | none =>
      obtain ⟨rfl, rfl⟩ := refused_inj hrun
      rfl
    | some scope => cases hbody

theorem isReferenced_of_callableOf? {h : Heap} (hr : h.Reachable held)
    (hf : h.callableOf? id = some f) : ∀ x ∈ f.references, h.isReferenced x = true := by
  obtain ⟨o, ho, he⟩ := Heap.exotic_of_callableOf? hf
  intro x hx
  rw [← f.map_target_links, List.mem_map] at hx
  obtain ⟨l, hl, rfl⟩ := hx
  have hstored : l ∈ (Node.object o).links :=
    Object.mem_links_iff.mpr (by simp [he, Exotic.links, hl])
  exact hr.isReferenced (hr.sound.counted.stored_live (Heap.object?_eq_some_iff.mp ho) _
    ((Node.mem_references_iff _ _).mpr ⟨l, hstored, rfl⟩))

/-- **What is no function** is refused, and the error holds it. -/
theorem call_of_not_callable (hf : r.heap.callable? callee = none) :
    (call engine callee this args).run r =
      (.error (.notCallable callee), r.holding callee.references) := by
  have hruns : Runs (callBy (runFunction engine) callee this args)
      (callBy (recorded engine) callee this args) r (.error (.notCallable callee)) []
      (r.holding callee.references) := .of_not_callable hf
  rw [call_eq]
  exact hruns.run_eq

theorem call_of_callable (hf : r.heap.callableOf? id = some f) {outcome : Except Error Value}
    {after : Runtime} (hrun : (runFunction engine id f (f.boundThis.getD this) args).run
      (r.holding f.references) = (outcome, after)) :
    (call engine (.object id) this args).run r =
      (outcome, after.letGo (f.references.map .reference)) := by
  rw [call_eq]
  exact (Runs.of_callable hf (.invoked hrun)).run_eq

/-- **A template** is refused, and everything is as it was. -/
theorem call_of_template (hr : r.heap.Reachable held) (hf : r.heap.callableOf? id = some f)
    {bytecode : List UInt8} (hbody : f.body = .compiled bytecode none) :
    (call engine (.object id) this args).run r = (.error (.unboundTemplate f.name), r) := by
  have hrun : (runFunction engine id f (f.boundThis.getD this) args).run (r.holding f.references) =
      (.error (.unboundTemplate f.name), r.holding f.references) := by
    rw [runFunction_of_body (by simp [hbody])]
    unfold runBody
    rw [hbody]
    rfl
  rw [call_of_callable hf hrun]
  exact congrArg (fun heap => (_, { r with heap := heap }))
    (Heap.letGo_addHandles (isReferenced_of_callableOf? hr hf))

/-- **A call that fails without the engine** leaves everything as it was; what the error carries is
held. -/
theorem call_error (hr : r.heap.Reachable held)
    (hf : ∀ f, r.heap.callable? callee = some f → f.body.isForEngine = false ∧ f.body ≠ .native .apply)
    (hrun : (call engine callee this args).run r = (.error e, r')) : r' = r.holding e.references := by
  cases hcallable : r.heap.callable? callee with
  | none =>
    rw [call_of_not_callable hcallable] at hrun
    obtain ⟨rfl, rfl⟩ := refused_inj hrun
    rw [Error.references_of_value? (v := callee) rfl]
  | some f =>
    obtain ⟨hengine, hbody⟩ := hf f hcallable
    obtain ⟨id, rfl, hcallable⟩ := Heap.exists_callableOf? hcallable
    obtain ⟨outcome, after, hafter⟩ : ∃ outcome after,
        (runFunction engine id f (f.boundThis.getD this) args).run (r.holding f.references) =
          (outcome, after) := ⟨_, _, rfl⟩
    rw [call_of_callable hcallable hafter] at hrun
    obtain ⟨rfl, rfl⟩ := Prod.mk.inj hrun
    rw [runFunction_of_body hbody] at hafter
    rw [runBody_error hengine hafter]
    exact congrArg (fun heap => { r with heap := heap })
      (Heap.letGo_addHandles_addHandles _ (isReferenced_of_callableOf? hr hcallable))

/-! ## Calls inside calls -/

variable {links : List Link} {runs entries : List Invocation}

theorem grows_toValue {h : Heap} (ha : Heap.Agree (e.links ++ links) h h) :
    h.Grows (e.toValue.run h).2 := by
  unfold Error.toValue
  split
  · exact .refl h
  · obtain ⟨-, hagree, o, hmade, -⟩ := ha.runNewString (e.message h)
    cases hv : e.value? with
    | none => exact hmade.grows
    | some v =>
      rw [Error.links_of_value? hv] at hagree
      have hr := (hagree.perm List.perm_middle.symm).left
      rw [List.map_append, v.map_target_links, ← Pending.references_ofValue] at hr
      exact hmade.grows.trans (.of_shrinks hr.letGo.2)

theorem grows_rethrow {outcome : Except Error Value}
    (ha : Runtime.Agree (outcomeLinks outcome ++ links) r r) :
    r.heap.Grows ((rethrow outcome).run r).2.heap := by
  cases outcome with
  | ok v => exact .refl r.heap
  | error e => exact grows_toValue ha.heap

/-- A call of these arguments that fails leaves every node as it was, if it hands nothing to the
engine. -/
def FailsQuietly (engine : Engine) (args : List Value) : Prop :=
  ∀ ⦃callee this : Value⦄ ⦃links : List Link⦄ ⦃r r' : Runtime⦄ ⦃runs : List Invocation⦄ ⦃e : Error⦄,
    Runtime.Agree links r r → callee.links ⊆ links → this.links ⊆ links → valueLinks args ⊆ links →
      r.heap.Calls callee this args runs [] →
        (call engine callee this args).run r = (.error e, r') → r.heap.Grows r'.heap

variable {inner : Value} {rest : List Value}

theorem grows_innerCall (hrest : ∀ inner rest, args = inner :: rest → FailsQuietly engine rest)
    (ha : Runtime.Agree links r r) (hthis : this.links ⊆ links) (hargs : valueLinks args ⊆ links)
    (hcalls : ∀ inner rest, args = inner :: rest → r.heap.Calls inner this rest runs [])
    (hrun : (innerCall engine args this).run r = (.error e, r')) :
    r.heap.Grows r'.heap ∧ Runtime.Agree (e.links ++ links) r' r' := by
  cases args with
  | nil =>
    obtain ⟨rfl, rfl⟩ := refused_inj hrun
    exact ⟨.refl r.heap, ha⟩
  | cons inner rest =>
    have hinner : inner.links ⊆ links := fun l hl => hargs (List.mem_append_left _ hl)
    have hrest' : valueLinks rest ⊆ links := fun l hl => hargs (List.mem_append_right _ hl)
    have hagree := (Runtime.Agree.runCall engine rest ha hinner hthis hrest').2
    have hrun : (call engine inner this rest).run r = (.error e, r') := hrun
    rw [hrun] at hagree
    exact ⟨hrest inner rest rfl ha hinner hthis hrest' (hcalls inner rest rfl) hrun, hagree⟩

/-- The native function `apply` fails quietly, if calls of fewer arguments do. -/
theorem grows_of_apply (runs : List Invocation)
    (hrest : ∀ inner rest, args = inner :: rest → FailsQuietly engine rest)
    (ha : Runtime.Agree links r r) (hid : .object id ∈ links)
    (hf : r.heap.callableOf? id = some f) (hbody : f.body = .native .apply)
    (hthis : this.links ⊆ links) (hargs : valueLinks args ⊆ links)
    (hcalls : ∀ inner rest, args = inner :: rest →
      r.heap.Calls inner (f.boundThis.getD this) rest runs [])
    (hrun : (call engine (.object id) this args).run r = (.error e, r')) :
    r.heap.Grows r'.heap := by
  obtain ⟨hagree, hbound⟩ := ha.holdingCallable hid hf hthis
  obtain ⟨outcome, middle, hinner⟩ : ∃ outcome middle,
      (innerCall engine args (f.boundThis.getD this)).run (r.holding f.references) =
        (outcome, middle) := ⟨_, _, rfl⟩
  have hafter : (runFunction engine id f (f.boundThis.getD this) args).run (r.holding f.references) =
      (rethrow outcome).run middle := by
    rw [runFunction_of_apply hbody, run_bind_of_run hinner]
  rw [call_of_callable hf hafter] at hrun
  obtain ⟨he, rfl⟩ := Prod.mk.inj hrun
  cases outcome with
  | ok v => cases he
  | error cause =>
    obtain ⟨hgrows, ha₁⟩ := grows_innerCall hrest hagree hbound
      (fun l hl => List.mem_append_right _ (hargs hl))
      (fun inner rest he => (hcalls inner rest he).congr fun x => Runtime.callableOf?_holding) hinner
    have hcause : Runtime.Agree (outcomeLinks (.error cause) ++ (f.links ++ links)) middle middle :=
      ha₁
    obtain ⟨-, hs⟩ := hcause.rethrow.2.letGoCallable
    have hheld : r.heap.Grows (r.holding f.references).heap :=
      .of_shrinks (Heap.shrinks_addHandles r.heap _)
    exact ((hheld.trans hgrows).trans (grows_rethrow hcause)).trans (.of_shrinks hs)

theorem failsQuietly_of_rest (hrest : ∀ inner rest, args = inner :: rest → FailsQuietly engine rest) :
    FailsQuietly engine args := by
  intro callee this links r r' runs e ha hcallee hthis hargs hcalls hrun
  have hunchanged (hf : ∀ f, r.heap.callable? callee = some f →
      f.body.isForEngine = false ∧ f.body ≠ .native .apply) : r.heap.Grows r'.heap := by
    rw [call_error ha.heap.left hf hrun]
    exact .of_shrinks (Heap.shrinks_addHandles r.heap _)
  generalize hentries : ([] : List Invocation) = entries at hcalls
  cases hcalls with
  | refused hf =>
    refine hunchanged fun f hf' => ?_
    rw [hf] at hf'
    cases hf'
  | @ran id f _ _ hf hbody =>
    refine hunchanged fun g hg => ?_
    obtain rfl : f = g := Option.some.inj (hf.symm.trans hg)
    refine ⟨?_, hbody⟩
    cases hengine : f.body.isForEngine with
    | false => rfl
    | true =>
      rw [hengine] at hentries
      cases hentries
  | idle hf hbody =>
    exact grows_of_apply [] hrest ha (hcallee (List.mem_singleton.mpr rfl)) hf hbody hthis
      hargs (fun _ _ he => by cases he) hrun
  | @applied id f _ inner rest runs _ hf hbody hinner =>
    refine grows_of_apply runs hrest ha (hcallee (List.mem_singleton.mpr rfl)) hf hbody hthis
      hargs (fun other more he => ?_) hrun
    obtain ⟨rfl, rfl⟩ := List.cons.inj he
    exact hentries ▸ hinner

/-- **Every call that fails and hands nothing to the engine** leaves the nodes that are there as they
were, whatever functions of the host it runs. -/
theorem failsQuietly (engine : Engine) (args : List Value) : FailsQuietly engine args := by
  induction args with
  | nil =>
    refine failsQuietly_of_rest fun inner rest he => ?_
    cases he
  | cons first others ih =>
    refine failsQuietly_of_rest fun inner rest he => ?_
    obtain ⟨_, rfl⟩ := List.cons.inj he
    exact ih

end RunM

end ScriptCore
