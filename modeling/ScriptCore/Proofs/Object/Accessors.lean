import ScriptCore.Proofs.Agreement.WholeSteps
import ScriptCore.Proofs.Heap.Handles
import ScriptCore.Proofs.Object.Invocations
import ScriptCore.Proofs.Object.Walks

/-!
# Accessors

A property is accessed by calling the nearest accessor on the prototype chain, with the object as `this`
unless the function has a value bound to it. It is called once and nothing else is (`CalledOnce`). The
heap is otherwise left alone: the function finds every node as it was, and after it nodes only die. So no
plain field is written but by the function itself.

Where no link of the chain has an accessor, nothing is called, and reads and writes are those of plain
fields. `accessors_resolve` says all of this, of reads and of writes, on every heap that a program can come
to.
-/

namespace ScriptCore

/-! ## Calls of accessors -/

namespace Runtime.Agree

variable {r s : Runtime} {links more : List Link} {id accessor : NodeId} {f : Callable}
  {this v : Value} {args : List Value} {items : List Pending}

theorem runFunction (engine : Engine) (ha : Agree links r s) (hid : .object id ∈ links)
    (hf : r.heap.callableOf? id = some f) (hheld : f.links ⊆ links) (hthis : this.links ⊆ links)
    (hargs : valueLinks args ⊆ links) :
    Together (RunM.runFunction engine id f this args) (RunM.runFunction engine id f this args) r s
      fun a r' s' => Agree (outcomeLinks a ++ links) r' s' := by
  unfold RunM.runFunction
  split
  · cases args with
    | nil => exact (ha.refuse (.scalar rfl)).bind fun _ _ _ ha => ha.rethrow
    | cons inner rest =>
      have hinner : inner.links ⊆ links := fun l hl => hargs (List.mem_append_left _ hl)
      have hrest : valueLinks rest ⊆ links := fun l hl => hargs (List.mem_append_right _ hl)
      exact (runCall engine rest ha hinner hthis hrest).bind fun _ _ _ ha => ha.rethrow
  · exact ha.runBody hid hf hheld hthis hargs

theorem holding (ha : Agree links r r) (hm : ∀ l ∈ more, r.heap.Sees links l) :
    Agree (more ++ links) (r.holding (more.map Link.target)) (r.holding (more.map Link.target)) :=
  ⟨ha.heap.hold hm, rfl⟩

theorem holdingOne (ha : Agree links r r) (hs : r.heap.Sees links (.object id)) :
    Agree (.object id :: links) (r.holding [id]) (r.holding [id]) :=
  @holding r links [.object id] ha fun _ hl => List.mem_singleton.mp hl ▸ hs

theorem letGo (ha : Agree (more ++ links) r r)
    (hi : items.flatMap Pending.references = more.map Link.target)
    (hbare : items.flatMap Pending.payloads = []) :
    Agree links (r.letGo items) (r.letGo items) ∧ Heap.Shrinks r.heap (r.letGo items).heap := by
  have hr := ha.heap.left
  rw [List.map_append, ← hi] at hr
  exact ⟨⟨ha.heap.letGo hi hbare, rfl⟩, hr.letGo.2⟩

theorem holdingCallable (ha : Agree links r r) (hid : .object id ∈ links)
    (hf : r.heap.callableOf? id = some f) (hthis : this.links ⊆ links) :
    Agree (f.links ++ links) (r.holding f.references) (r.holding f.references) ∧
      (f.boundThis.getD this).links ⊆ f.links ++ links := by
  have hagree := ha.holding (Heap.Agree.sees_callableOf? (.held hid) hf)
  rw [f.map_target_links] at hagree
  refine ⟨hagree, fun l hl => ?_⟩
  cases hb : f.boundThis with
  | none =>
    rw [hb] at hl
    exact List.mem_append_right _ (hthis hl)
  | some own =>
    rw [hb] at hl
    refine List.mem_append_left _ (List.mem_append_left _ ?_)
    rw [hb]
    exact List.mem_append_left _ hl

theorem letGoCallable (ha : Agree (more ++ (f.links ++ links)) r r) :
    Agree (more ++ links) (r.letGo (f.references.map .reference))
      (r.letGo (f.references.map .reference)) ∧
      Heap.Shrinks r.heap (r.letGo (f.references.map .reference)).heap := by
  refine (ha.perm (List.perm_append_comm_assoc ..)).letGo ?_ (Pending.payloads_map_reference _)
  rw [Pending.references_map_reference, f.map_target_links]

theorem letGoOne (ha : Agree (.object id :: links) r r) :
    Agree links (r.letGo [.reference id]) (r.letGo [.reference id]) ∧
      Heap.Shrinks r.heap (r.letGo [.reference id]).heap :=
  @letGo r links [.object id] [.reference id] ha rfl rfl

end Runtime.Agree

namespace RunM

/-- What a call of an accessor comes to. -/
inductive CalledOnce (engine : Engine) (r : Runtime) (accessor : NodeId) (this : Value)
    (args : List Value) : Except Error Value → List Invocation → Runtime → Prop
  /-- Its function is run once, with its own `this` if that is bound. It finds every node as it was, and
  the outcome is that of the function. After it nodes may die, but no other node changes. -/
  | ran {f : Callable} {outcome : Except Error Value} {after r' : Runtime}
      (hf : r.heap.callableOf? accessor = some f)
      (hrun : (runFunction engine accessor f (f.boundThis.getD this) args).run
        (r.holding (accessor :: f.references)) = (outcome, after))
      (hrest : Heap.Shrinks after.heap r'.heap) (hcalls : r'.engineCalls = after.engineCalls) :
      CalledOnce engine r accessor this args outcome
        [⟨accessor, f.boundThis.getD this, args⟩] r'
  /-- It is no function. Nothing is run, and the error holds it. -/
  | refused (hf : r.heap.callableOf? accessor = none) :
      CalledOnce engine r accessor this args (.error (.notCallable (.object accessor))) []
        (r.holding [accessor])

variable {engine : Engine} {r r' r'' : Runtime} {accessor : NodeId} {this v : Value}
  {args : List Value} {outcome : Except Error Value} {record : List Invocation} {links : List Link}

theorem CalledOnce.letGo (h : CalledOnce engine r accessor this args (.ok v) record r')
    (hs : Heap.Shrinks r'.heap r''.heap) (hcalls : r''.engineCalls = r'.engineCalls) :
    CalledOnce engine r accessor this args (.ok v) record r'' := by
  cases h with
  | ran hf hrun hrest hc => exact .ran hf hrun (hrest.trans hs) (hcalls.trans hc)

theorem CalledOnce.record_eq {f : Callable}
    (h : CalledOnce engine r accessor this args outcome record r')
    (hf : r.heap.callableOf? accessor = some f) :
    record = [⟨accessor, f.boundThis.getD this, args⟩] := by
  cases h with
  | ran hf' =>
    obtain rfl := Option.some.inj (hf.symm.trans hf')
    rfl
  | refused hf' =>
    rw [hf] at hf'
    cases hf'

/-- What is no function is held by the error. -/
theorem runs_refused (engine : Engine) (ha : Runtime.Agree links r r)
    (hs : r.heap.Sees links (.object accessor)) (hf : r.heap.callableOf? accessor = none)
    (this : Value) (args : List Value) :
    Runs (callAccessorBy (runFunction engine) accessor this args)
      (callAccessorBy (recorded engine) accessor this args) r
      (.error (.notCallable (.object accessor))) [] (r.holding [accessor]) ∧
    Runtime.Agree (outcomeLinks (.error (.notCallable (.object accessor))) ++ links)
      (r.holding [accessor]) (r.holding [accessor]) := by
  have ha₁ := ha.holdingOne hs
  have hreferenced : ∀ id ∈ [accessor], (r.holding [accessor]).heap.isReferenced id = true :=
    fun id hm => ha₁.heap.left.isReferenced
      (ha₁.heap.left.isLive (List.mem_singleton.mp hm ▸ List.mem_cons_self))
  have hback : ((r.holding [accessor]).holding [accessor]).letGo [.reference accessor] =
      r.holding [accessor] :=
    congrArg (fun heap => { r with heap := heap }) (Heap.letGo_addHandles hreferenced)
  have hlinks : outcomeLinks (.error (.notCallable (.object accessor))) = [.object accessor] :=
    @Error.links_of_value? (.notCallable (.object accessor)) _ rfl
  refine ⟨?_, ?_⟩
  · rw [← hback]
    exact .accessor (.of_not_callable (Runtime.callableOf?_holding.trans hf))
  · rw [hlinks]
    exact ha₁

/-- What is a function is run with everything held that it refers to. -/
theorem exists_ran (engine : Engine) (ha : Runtime.Agree links r r)
    (hs : r.heap.Sees links (.object accessor)) {f : Callable}
    (hf : r.heap.callableOf? accessor = some f) (hthis : this.links ⊆ links)
    (hargs : valueLinks args ⊆ links) : ∃ outcome after r',
      Runs (callAccessorBy (runFunction engine) accessor this args)
        (callAccessorBy (recorded engine) accessor this args) r outcome
        [⟨accessor, f.boundThis.getD this, args⟩] r' ∧
      (runFunction engine accessor f (f.boundThis.getD this) args).run
        (r.holding (accessor :: f.references)) = (outcome, after) ∧
      Heap.Shrinks after.heap r'.heap ∧ r'.engineCalls = after.engineCalls ∧
      Runtime.Agree (outcomeLinks outcome ++ links) r' r' := by
  have ha₁ := ha.holdingOne hs
  have hf₁ : (r.holding [accessor]).heap.callableOf? accessor = some f :=
    Runtime.callableOf?_holding.trans hf
  have hself : Link.object accessor ∈ Link.object accessor :: links := List.mem_cons_self
  have hheld : (r.holding [accessor]).holding f.references = r.holding (accessor :: f.references) :=
    rfl
  obtain ⟨ha₂, hbound⟩ := ha₁.holdingCallable hself hf₁ fun l hl =>
    List.mem_cons_of_mem _ (hthis hl)
  rw [hheld] at ha₂
  have hargs₂ : valueLinks args ⊆ f.links ++ .object accessor :: links := fun l hl =>
    List.mem_append_right _ (List.mem_cons_of_mem _ (hargs hl))
  have hf₂ : (r.holding (accessor :: f.references)).heap.callableOf? accessor = some f :=
    Runtime.callableOf?_holding.trans hf
  obtain ⟨outcome, after, hrun⟩ : ∃ outcome after,
      (runFunction engine accessor f (f.boundThis.getD this) args).run
        (r.holding (accessor :: f.references)) = (outcome, after) := ⟨_, _, rfl⟩
  have ha₃ : Runtime.Agree (outcomeLinks outcome ++ (f.links ++ .object accessor :: links)) after
      after := by
    have hagree := (ha₂.runFunction engine (List.mem_append_right _ hself) hf₂ (List.subset_append_left ..)
      hbound hargs₂).2
    rwa [hrun] at hagree
  -- What it refers to is let go, and the accessor after that.
  obtain ⟨ha₄, hs₁⟩ := ha₃.letGoCallable
  obtain ⟨ha₅, hs₂⟩ := (ha₄.perm List.perm_middle).letGoOne
  exact ⟨outcome, after, _, .accessor (.of_callable hf₁ (.invoked hrun)), hrun, hs₁.trans hs₂, rfl, ha₅⟩

/-- **An accessor is called once.** -/
theorem exists_calledOnce (engine : Engine) (ha : Runtime.Agree links r r)
    (hs : r.heap.Sees links (.object accessor)) (hthis : this.links ⊆ links)
    (hargs : valueLinks args ⊆ links) : ∃ outcome record r',
      Runs (callAccessorBy (runFunction engine) accessor this args)
        (callAccessorBy (recorded engine) accessor this args) r outcome record r' ∧
      CalledOnce engine r accessor this args outcome record r' ∧
      Runtime.Agree (outcomeLinks outcome ++ links) r' r' := by
  cases hf : r.heap.callableOf? accessor with
  | none =>
    obtain ⟨hrun, ha'⟩ := runs_refused engine ha hs hf this args
    exact ⟨_, _, _, hrun, .refused hf, ha'⟩
  | some f =>
    obtain ⟨outcome, after, r', hrun, hbody, hrest, hcalls, ha'⟩ :=
      exists_ran engine ha hs hf hthis hargs
    exact ⟨_, _, _, hrun, .ran hf hbody hrest hcalls, ha'⟩

end RunM

/-! ## The nearest accessor -/

namespace Heap

variable {α : Type} {h : Heap} {held : List NodeId} {ask : NodeId → Option α} {a : α}
  {id link : NodeId}

theorem Sound.findSome?_of_walk (hs : h.Sound held) (ho : ∃ o, h.object? id = some o)
    (hw : h.Walk ask (some id) (some a)) : (h.chain id).findSome? ask = some a :=
  ((hs.walk_iff fun _ hx => Option.some.inj hx ▸ ho).mp hw).symm

theorem Sound.exists_walk (hs : h.Sound held) (ho : ∃ o, h.object? id = some o)
    (hp : Relation.ReflTransGen h.Inherits id link) (ha : ask link = some a) :
    ∃ nearest, h.Walk ask (some id) (some nearest) := by
  cases hfind : (h.chain id).findSome? ask with
  | none =>
    have hnone := List.findSome?_eq_none_iff.mp hfind link (hs.mem_chain_iff.mpr ⟨ho, hp⟩)
    rw [ha] at hnone
    cases hnone
  | some nearest =>
    exact ⟨nearest, (hs.walk_iff fun _ hx => Option.some.inj hx ▸ ho).mpr hfind.symm⟩

theorem Sound.findSome?_eq_none (hs : h.Sound held)
    (hnone : ∀ link, Relation.ReflTransGen h.Inherits id link → ask link = none) :
    (h.chain id).findSome? ask = none := by
  apply List.findSome?_eq_none_iff.mpr
  intro link hm
  exact hnone link (hs.mem_chain_iff.mp hm).2

end Heap

namespace RunM

variable {engine : Engine} {r r' r'' : Runtime} {id accessor : NodeId} {key : String} {v : Value}
  {outcome : Except Error Value} {written : Except Error Unit} {record : List Invocation}
  {recorder : Runner RecordM}

/-- **With a getter** on the chain it is called, and so is it by a read. -/
theorem Runs.getter (hg : r.heap.findGetter? id key = some accessor)
    (h : Runs (callAccessorBy (runFunction engine) accessor (.object id) [])
      (callAccessorBy recorder accessor (.object id) []) r outcome record r') :
    Runs (callGetter engine id key) (callGetterBy recorder id key) r outcome record r' ∧
    Runs (getProperty engine id key) (getPropertyBy recorder id key) r outcome record r' := by
  have hcall : Runs (callGetterBy (runFunction engine) id key)
      (callGetterBy recorder id key) r outcome record r' := by
    unfold callGetterBy
    apply heap_bind
    rw [hg]
    exact h
  rw [callGetter_eq, getProperty_eq]
  refine ⟨hcall, ?_⟩
  unfold getPropertyBy
  apply heap_bind
  rw [hg]
  exact hcall

/-- **Without a getter** nothing is called, and a read is one of a plain field. -/
theorem Runs.noGetter (hg : r.heap.findGetter? id key = none) :
    Runs (callGetter engine id key) (callGetterBy recorder id key) r
      (.ok .undefined) [] r ∧
    Runs (getProperty engine id key) (getPropertyBy recorder id key) r
      (.ok (r.heap.lookupField id key)) [] (r.holding (r.heap.lookupField id key).references) := by
  rw [callGetter_eq, getProperty_eq]
  refine ⟨?_, ?_⟩
  · unfold callGetterBy
    apply heap_bind
    rw [hg]
    exact .pure _ r
  · unfold getPropertyBy
    apply heap_bind
    rw [hg]
    exact .lift rfl

/-- **With a setter** on the chain it is called, and so is it by a write. Its result is let go. -/
theorem Runs.setter (hg : r.heap.findSetter? id key = some accessor)
    (h : Runs (callAccessorBy (runFunction engine) accessor (.object id) [v])
      (callAccessorBy recorder accessor (.object id) [v]) r outcome record r')
    (hdrop : (dropResult outcome).run r' = (written, r'')) :
    Runs (callSetter engine id key v) (callSetterBy recorder id key v) r
      written record r'' ∧
    Runs (setProperty engine id key v) (setPropertyBy recorder id key v) r
      written record r'' := by
  have hcall : Runs (callSetterBy (runFunction engine) id key v)
      (callSetterBy recorder id key v) r written record r'' := by
    unfold callSetterBy
    apply heap_bind
    rw [hg, ← List.append_nil record]
    exact h.bind (.lift hdrop)
  rw [callSetter_eq, setProperty_eq]
  refine ⟨hcall, ?_⟩
  unfold setPropertyBy
  apply heap_bind
  rw [hg]
  exact hcall

/-- **Without a setter** nothing is called or changed, and a write is one to a plain field. -/
theorem Runs.noSetter (hg : r.heap.findSetter? id key = none) :
    Runs (callSetter engine id key v) (callSetterBy recorder id key v) r (.ok ()) [] r ∧
    Runs (setProperty engine id key v) (setPropertyBy recorder id key v) r (.ok ()) []
      { r with heap := ((HeapM.assignField id key v).run r.heap).2 } := by
  rw [callSetter_eq, setProperty_eq]
  refine ⟨?_, ?_⟩
  · unfold callSetterBy
    apply heap_bind
    rw [hg]
    exact .pure _ r
  · unfold setPropertyBy
    apply heap_bind
    rw [hg]
    exact (Runs.onHeap (HeapM.assignField id key v) r).bind (.pure _ _)

theorem CalledOnce.exists_dropped {this : Value} {args : List Value}
    {links : List Link} (h : CalledOnce engine r accessor this args outcome record r')
    (ha : Runtime.Agree (outcomeLinks outcome ++ links) r' r') : ∃ r'',
      (dropResult outcome).run r' = (outcome.map fun _ => (), r'') ∧
      CalledOnce engine r accessor this args outcome record r'' := by
  cases outcome with
  | error e => exact ⟨r', rfl, h⟩
  | ok result =>
    have hitems : (Pending.ofValue result).flatMap Pending.references =
        result.links.map Link.target := by
      rw [Pending.references_ofValue, result.map_target_links]
    have ha : Runtime.Agree (result.links ++ links) r' r' := ha
    obtain ⟨-, hs⟩ := ha.letGo hitems (Pending.payloads_ofValue result)
    exact ⟨r'.letGo (Pending.ofValue result), rfl, h.letGo hs rfl⟩

/-- **What accesses to a property come to.** An accessor is the nearest one if the walk along the
prototypes ends with it. -/
structure Resolves (engine : Engine) (r : Runtime) (id : NodeId) (key : String) (v : Value) :
    Prop where
  /-- Where any link has a getter, whatever plain fields there are, one of them is the nearest. -/
  nearestGetter : ∀ link g, Relation.ReflTransGen r.heap.Inherits id link →
    r.heap.ownGetter? link key = some g →
      ∃ getter, r.heap.Walk (fun link => r.heap.ownGetter? link key) (some id) (some getter)
  /-- The nearest getter is called once by itself and once by a read, with the object as `this`. -/
  getter : ∀ getter, r.heap.Walk (fun link => r.heap.ownGetter? link key) (some id) (some getter) →
    ∃ outcome record r',
      Runs (callGetter engine id key) (callGetterBy (recorded engine) id key) r
        outcome record r' ∧
      Runs (getProperty engine id key) (getPropertyBy (recorded engine) id key) r
        outcome record r' ∧
      CalledOnce engine r getter (.object id) [] outcome record r'
  /-- Without a getter nothing is called. Reads are reads of plain fields. -/
  noGetter : (∀ link, Relation.ReflTransGen r.heap.Inherits id link →
      r.heap.ownGetter? link key = none) →
    Runs (callGetter engine id key) (callGetterBy (recorded engine) id key) r
      (.ok .undefined) [] r ∧
    Runs (getProperty engine id key) (getPropertyBy (recorded engine) id key) r
      (.ok (r.heap.lookupField id key)) [] (r.holding (r.heap.lookupField id key).references)
  nearestSetter : ∀ link s, Relation.ReflTransGen r.heap.Inherits id link →
    r.heap.ownSetter? link key = some s →
      ∃ setter, r.heap.Walk (fun link => r.heap.ownSetter? link key) (some id) (some setter)
  /-- The nearest setter is called once by itself and once by a write, with the value as its only
  argument. What it returns is ignored, unless it is an error. -/
  setter : ∀ setter, r.heap.Walk (fun link => r.heap.ownSetter? link key) (some id) (some setter) →
    ∃ outcome record r',
      Runs (callSetter engine id key v) (callSetterBy (recorded engine) id key v) r
        (outcome.map fun _ => ()) record r' ∧
      Runs (setProperty engine id key v) (setPropertyBy (recorded engine) id key v) r
        (outcome.map fun _ => ()) record r' ∧
      CalledOnce engine r setter (.object id) [v] outcome record r'
  /-- Without a setter nothing is called and nothing changes. Writes are writes to plain fields. -/
  noSetter : (∀ link, Relation.ReflTransGen r.heap.Inherits id link →
      r.heap.ownSetter? link key = none) →
    Runs (callSetter engine id key v) (callSetterBy (recorded engine) id key v) r (.ok ()) [] r ∧
    Runs (setProperty engine id key v) (setPropertyBy (recorded engine) id key v) r (.ok ()) []
      { r with heap := ((HeapM.assignField id key v).run r.heap).2 }

/-- **Accessors are resolved** on every heap that a program can come to, for every object and value
that the host holds there. -/
theorem accessors_resolve {links : List Link} (engine : Engine)
    (hr : r.heap.Reachable (links.map Link.target)) (hl : ∀ l ∈ links, r.heap.Has l)
    (hid : .object id ∈ links) (hv : v.links ⊆ links) (key : String) :
    Resolves engine r id key v := by
  have hs := hr.sound
  have ho : ∃ o, r.heap.object? id = some o := Heap.has_object_iff.mp (hl _ hid)
  have ha : Runtime.Agree links r r := ⟨.refl hr hl trivial, rfl⟩
  have hsees : r.heap.Sees links (.object id) := .held hid
  have hthis : (Value.object id).links ⊆ links := fun l hm => List.mem_singleton.mp hm ▸ hid
  refine ⟨fun link g hp hg => hs.exists_walk ho hp hg, ?_, ?_,
    fun link s hp hg => hs.exists_walk ho hp hg, ?_, ?_⟩
  · intro getter hw
    have hg : r.heap.findGetter? id key = some getter := hs.findSome?_of_walk ho hw
    obtain ⟨outcome, record, r', hrun, honce, -⟩ :=
      @exists_calledOnce _ _ _ [] _ engine ha (ha.heap.sees_findGetter? hsees hg) hthis
        (List.nil_subset _)
    obtain ⟨hcall, hget⟩ := Runs.getter hg hrun
    exact ⟨outcome, record, r', hcall, hget, honce⟩
  · intro hnone
    exact Runs.noGetter (hs.findSome?_eq_none hnone)
  · intro setter hw
    have hg : r.heap.findSetter? id key = some setter := hs.findSome?_of_walk ho hw
    have hargs : valueLinks [v] ⊆ links := by
      rw [valueLinks_singleton]
      exact hv
    obtain ⟨outcome, record, r', hrun, honce, ha'⟩ :=
      exists_calledOnce engine ha (ha.heap.sees_findSetter? hsees hg) hthis hargs
    obtain ⟨r'', hdrop, honce⟩ := honce.exists_dropped ha'
    obtain ⟨hcall, hset⟩ := Runs.setter hg hrun hdrop
    exact ⟨outcome, record, r'', hcall, hset, honce⟩
  · intro hnone
    exact Runs.noSetter (hs.findSome?_eq_none hnone)

/-- A host makes a child with a plain field, and its parent with a getter and a setter for the same
name. -/
def raising : List Step :=
  [⟨.store (.keep (.object [])), some "parent", none⟩,
    ⟨.object (.create "Child" (some (.register "parent"))), some "child", none⟩,
    ⟨.function (.create "tag" [] false (.native .tag)), some "tag", none⟩,
    ⟨.function (.create "store" [] false (.native .store)), some "store", none⟩,
    ⟨.function (.addGetter (.register "parent") (.register "tag") "x"), none, none⟩,
    ⟨.function (.addSetter (.register "parent") (.register "store") "x"), none, none⟩,
    ⟨.object (.insertField (.register "child") (.integer 1) "x"), none, none⟩]

def raised : Session := (Session.initial.run raising).2

/-- The accessors of the parent are called for the child, though the child has the field. -/
theorem accessors_resolve_raised :
    .object 5 ∈ raised.links ∧ raised.heap.lookupField 5 "x" = .integer 1 ∧
    (∃ outcome r', Runs (getProperty .nativeOnly 5 "x") (getPropertyBy (recorded .nativeOnly) 5 "x")
      ⟨raised.heap, 0⟩ outcome [⟨6, .object 5, []⟩] r') ∧
    ∃ written r', Runs (setProperty .nativeOnly 5 "x" (.integer 7))
      (setPropertyBy (recorded .nativeOnly) 5 "x" (.integer 7)) ⟨raised.heap, 0⟩ written
      [⟨8, .object 5, [.integer 7]⟩] r' := by
  have hchild : .object 5 ∈ raised.links := by decide +kernel
  have hr : raised.heap.Reachable (raised.links.map Link.target) := by
    unfold raised
    generalize raising = steps
    exact Session.reachable_run steps
  have hl : ∀ l ∈ raised.links, raised.heap.Has l := by
    unfold raised
    generalize raising = steps
    exact (Session.agree_run steps).heap.has
  have hfield : raised.heap.lookupField 5 "x" = .integer 1 := by decide +kernel
  have hparent : raised.heap.prototype? 5 = some 4 := by decide +kernel
  have hgetters : raised.heap.ownGetter? 5 "x" = none ∧ raised.heap.ownGetter? 4 "x" = some 6 := by
    decide +kernel
  have hsetters : raised.heap.ownSetter? 5 "x" = none ∧ raised.heap.ownSetter? 4 "x" = some 8 := by
    decide +kernel
  have hgetter : (raised.heap.callableOf? 6).map Callable.boundThis = some none := by decide +kernel
  have hsetter : (raised.heap.callableOf? 8).map Callable.boundThis = some none := by decide +kernel
  generalize raised.heap = h at *
  have hresolve : Resolves .nativeOnly ⟨h, 0⟩ 5 "x" (.integer 7) :=
    accessors_resolve .nativeOnly hr hl hchild (List.nil_subset _) "x"
  refine ⟨hchild, hfield, ?_, ?_⟩
  · have hwalk : h.Walk (fun link => h.ownGetter? link "x") (some 5) (some 6) := by
      refine .onward hgetters.1 ?_
      rw [hparent]
      exact .answered hgetters.2
    obtain ⟨f, hf, hthis⟩ := Option.map_eq_some_iff.mp hgetter
    obtain ⟨outcome, record, r', -, hget, honce⟩ := hresolve.getter 6 hwalk
    rw [honce.record_eq hf, hthis] at hget
    exact ⟨outcome, r', hget⟩
  · have hwalk : h.Walk (fun link => h.ownSetter? link "x") (some 5) (some 8) := by
      refine .onward hsetters.1 ?_
      rw [hparent]
      exact .answered hsetters.2
    obtain ⟨f, hf, hthis⟩ := Option.map_eq_some_iff.mp hsetter
    obtain ⟨outcome, record, r', -, hset, honce⟩ := hresolve.setter 8 hwalk
    rw [honce.record_eq hf, hthis] at hset
    exact ⟨_, r', hset⟩

end RunM

end ScriptCore
