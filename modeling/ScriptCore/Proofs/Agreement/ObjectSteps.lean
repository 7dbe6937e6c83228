import ScriptCore.Proofs.Agreement.ValueSteps
import ScriptCore.Session.Objects

/-!
# Steps about objects on sessions that agree

Every step about objects performs the same on both sides, except for the list of what has been
released: when a node dies depends on the collections there were.
-/

namespace ScriptCore

namespace Heap.Matches

variable {h k : Heap} {links : List Link} {id : NodeId}

theorem sees_elementAt (hs : h.Sees links (.object id)) (index : Nat) :
    h.SeesValue links (h.elementAt id index) := by
  rw [elementAt]
  cases hv : (h.elementsOf? id).bind (·[index]?) with
  | none => exact .scalar rfl
  | some v =>
    obtain ⟨elements, he, hv⟩ := Option.bind_eq_some_iff.mp hv
    obtain ⟨o, ho, hx⟩ := Agree.exotic_of_elementsOf? he
    exact hs.element ho hx (Array.mem_toList_iff.mpr (Array.mem_of_getElem? hv))

theorem elementsShown_eq (ha : Matches links h k) (hs : h.Sees links (.object id)) :
    Snapshot.orNull (k.elementsOf? id) (fun elements => .array (elements.toList.map k.snapshot)) =
      Snapshot.orNull (h.elementsOf? id)
        fun elements => .array (elements.toList.map h.snapshot) := by
  rw [ha.elementsOf?_eq hs]
  cases he : h.elementsOf? id with
  | none => rw [Snapshot.orNull, Snapshot.orNull, Option.map_none, Option.map_none]
  | some elements =>
    obtain ⟨o, ho, hx⟩ := Agree.exotic_of_elementsOf? he
    have hmap := ha.map_snapshot_eq fun v hv => hs.element ho hx hv
    rw [Snapshot.orNull, Snapshot.orNull, Option.map_some, Option.map_some, hmap]

end Heap.Matches

namespace StepM

variable [History] {s t : Session} {extra more : List Link} {v : Value} {id : NodeId}

omit [History] in
/-- An operation on the heap that neither takes hold of anything nor lets go. Something else may be
known of the heaps afterwards. -/
theorem runQuietly {before after : History} {α : Type} {m : HeapM α}
    (ha : @Session.Agree before extra s t)
    (hm : Together m m s.heap t.heap fun _ h k => Heap.Agree (extra ++ s.links) h k) :
    Alike (StepM.onHeap m) (StepM.onHeap m) s t more fun _ s' t' =>
      Session.Agree extra s' t' ∧ s'.links = s.links := by
  have hcalls : t.runtime.engineCalls = s.runtime.engineCalls := by
    obtain ⟨⟨_, hcalls⟩, _⟩ := ha
    exact hcalls
  exact ⟨congrArg Except.ok hm.1, ha.withRuntime ⟨hm.2, hcalls⟩, rfl⟩

omit [History] in
theorem sees_object (hid : .object id ∈ s.links) : s.heap.Sees (extra ++ s.links) (.object id) :=
  .held (List.mem_append_right _ hid)

theorem runKeepAll {x : Option Value} (ha : Session.Agree (valueLinks x.toList ++ extra) s t) :
    Alike (x.forM fun v => StepM.keep v) (x.forM fun v => StepM.keep v) s t more fun _ s' t' =>
      Session.Agree extra s' t' ∧ s.links ⊆ s'.links ∧ valueLinks x.toList ⊆ s'.links := by
  cases x with
  | none => exact Alike.pure ⟨ha, List.Subset.refl _, List.nil_subset _⟩
  | some v =>
    rw [Option.toList_some, valueLinks_singleton] at ha
    refine (Alike.keep ha).mono fun _ s' t' ⟨ha, hl⟩ => ⟨ha, ?_, ?_⟩
    · rw [hl]
      exact List.subset_append_left ..
    · rw [hl, Option.toList_some, valueLinks_singleton]
      exact List.subset_append_right ..

end StepM

/-! ## What a step attaches, detaches, defines and binds -/

def ObjectRequest.makeAttachment (on : Literal) (spec : PayloadSpec) : StepM (NodeId × Payload) := do
  let id ← .takeObject on
  let p ← makePayload spec
  return (id, p)

def ScopeRequest.makeDefinition (scope : String) (l : Literal) : StepM (NodeId × Value) := do
  let id ← .scope scope
  let v ← .take l
  return (id, v)

def FunctionRequest.makeBinding (on this : Literal) : StepM (NodeId × Value) := do
  let id ← .takeObject on
  let this ← .take this
  return (id, this)

namespace Session

def attachment? (s : Session) : Request → Option (NodeId × Payload)
  | .object (.setPayload on spec) => ((ObjectRequest.makeAttachment on spec).run.run s).1.toOption
  | _ => none

def detachment? (s : Session) : Request → Option NodeId
  | .object (.clearPayload on) => ((StepM.takeObject on).run.run s).1.toOption
  | _ => none

/-- The scope in which a request defines a variable, and the name of the variable. -/
def definition? (s : Session) : Request → Option (NodeId × String)
  | .scope (.define scope l name _) =>
    ((ScopeRequest.makeDefinition scope l).run.run s).1.toOption.map fun a => (a.1, name)
  | _ => none

/-- The function that a request binds, with the `this`. It is bound already, perhaps. -/
def binding? (s : Session) : Request → Option (NodeId × Value)
  | .function (.bindThis on this) => ((FunctionRequest.makeBinding on this).run.run s).1.toOption
  | _ => none

/-- The payloads that a request attaches and clears may be attached and cleared, the variable that it
defines may be defined, and the function that it binds may be bound, as far as the history goes. -/
structure Allows [History] (s : Session) (r : Request) : Prop where
  attach : ∀ {id p h k}, s.attachment? r = some (id, p) → Heap.Attach id p h k →
    History.Admits h → History.Admits k
  detach : ∀ {id h k}, s.detachment? r = some id → Heap.Detach id h k →
    History.Admits h → History.Admits k
  define : ∀ {id name h k}, s.definition? r = some (id, name) → Heap.Define id name h k →
    History.Admits h → History.Admits k
  bind : ∀ {id v h k}, s.binding? r = some (id, v) → Heap.Bind id v h k →
    History.Admits h → History.Admits k

theorem attachment?_of_ok {s s' : Session} {on : Literal} {spec : PayloadSpec} {a : NodeId × Payload}
    (hr : (ObjectRequest.makeAttachment on spec).run.run s = (.ok a, s')) :
    s.attachment? (.object (.setPayload on spec)) = some a := by
  rw [attachment?, hr]
  rfl

theorem attachment?_of_error {s s' : Session} {on : Literal} {spec : PayloadSpec} {cause : Failure}
    (hr : (ObjectRequest.makeAttachment on spec).run.run s = (.error cause, s')) :
    s.attachment? (.object (.setPayload on spec)) = none := by
  rw [attachment?, hr]
  rfl

theorem detachment?_of_ok {s s' : Session} {on : Literal} {id : NodeId}
    (hr : (StepM.takeObject on).run.run s = (.ok id, s')) :
    s.detachment? (.object (.clearPayload on)) = some id := by
  rw [detachment?, hr]
  rfl

theorem definition?_of_ok {s s' : Session} {scope : String} {l : Literal} {a : NodeId × Value}
    (name : String) (isMutable : Bool)
    (hr : (ScopeRequest.makeDefinition scope l).run.run s = (.ok a, s')) :
    s.definition? (.scope (.define scope l name isMutable)) = some (a.1, name) := by
  rw [definition?, hr]
  rfl

theorem binding?_of_ok {s s' : Session} {on this : Literal} {a : NodeId × Value}
    (hr : (FunctionRequest.makeBinding on this).run.run s = (.ok a, s')) :
    s.binding? (.function (.bindThis on this)) = some a := by
  rw [binding?, hr]
  rfl

theorem allows_any (s : Session) (r : Request) : s.Allows r :=
  ⟨fun _ _ _ => trivial, fun _ _ _ => trivial, fun _ _ _ => trivial, fun _ _ _ => trivial⟩

end Session

namespace ObjectRequest

open StepM

variable [History] {s t : Session} {extra more : List Link} {v : Value} {id : NodeId}

/-- The fields of an object that is not there yet are held. -/
theorem runMakeFields (entries : List (String × Literal)) :
    ∀ (fields : Fields Value) {s t : Session},
      Session.Agree (valueLinks fields.values ++ extra) s t →
        Alike (makeFields fields entries) (makeFields fields entries) s t extra fun made s' t' =>
          Session.Agree (valueLinks made.values ++ extra) s' t' ∧ s'.links = s.links := by
  induction entries with
  | nil => exact fun _ _ _ ha => Alike.pure ⟨ha, rfl⟩
  | cons entry rest ih =>
    obtain ⟨key, l⟩ := entry
    intro fields s t ha
    refine (Alike.orLetGo (runMake l ha)).bind fun v s₁ t₁ hq => ?_
    obtain ⟨ha, hl₁⟩ := hq
    have hinsert : Session.Agree (valueLinks (fields.get? key).toList ++
        (valueLinks (fields.insert key v).values ++ extra)) s₁ t₁ := by
      refine ha.perm (List.perm_iff_count.mpr fun l => ?_)
      have hcount := ((fields.perm_values_insert key v).flatMap_right Value.links).count_eq l
      simp only [List.flatMap_append, List.flatMap_cons, List.count_append] at hcount
      simp only [valueLinks, List.count_append]
      omega
    cases hold : fields.get? key with
    | none =>
      rw [hold] at hinsert
      refine Alike.skip_bind ?_
      exact (ih _ hinsert).mono fun _ s₂ t₂ hq => ⟨hq.1, hq.2.trans hl₁⟩
    | some old =>
      rw [hold, Option.toList_some, valueLinks_singleton] at hinsert
      refine (Alike.letGo hinsert).bind fun _ s₂ t₂ hq => ?_
      obtain ⟨ha, hl₂⟩ := hq
      exact (ih _ ha).mono fun _ s₃ t₃ hq => ⟨hq.1, hq.2.trans (hl₂.trans hl₁)⟩

theorem runMakePayload (spec : PayloadSpec) (ha : Session.Agree extra s t) :
    Alike (makePayload spec) (makePayload spec) s t extra fun p s' t' =>
      Session.Agree extra s' t' ∧ s.links ⊆ s'.links ∧ p.links ⊆ s'.links := by
  cases spec with
  | integer l =>
    refine (runTake l ha).bind fun v s₁ t₁ ⟨ha, hs, hv⟩ => Alike.heap_bind ?_
    rw [ha.heap.toInteger_eq (sees_taken hv)]
    exact Alike.pure ⟨ha, hs, List.nil_subset _⟩
  | text l =>
    refine (runTake l ha).bind fun v s₁ t₁ ⟨ha, hs, hv⟩ => Alike.heap_bind ?_
    rw [ha.heap.display_eq (sees_taken hv)]
    exact Alike.pure ⟨ha, hs, List.nil_subset _⟩
  | value l =>
    exact (runTake l ha).bind fun v s₁ t₁ ⟨ha, hs, hv⟩ => Alike.pure ⟨ha, hs, hv⟩
  | watch name collects => exact Alike.pure ⟨ha, List.Subset.refl _, List.nil_subset _⟩

theorem runLengthFacts (possible : Bool) (ha : Session.Agree extra s t)
    (hid : .object id ∈ s.links) :
    PerformsAlike (lengthFacts id possible) (lengthFacts id possible) s t extra := by
  refine Alike.heap_bind (runFacts ha ?_)
  rw [ha.heap.arrayLength?_eq (sees_object hid)]

theorem runCharFacts (index : Nat) (ha : Session.Agree extra s t) (hid : .object id ∈ s.links) :
    PerformsAlike (charFacts id index) (charFacts id index) s t extra := by
  refine Alike.heap_bind ?_
  rw [ha.heap.text?_eq (sees_object hid).value]
  refine (runNewText ha _).bind fun char s₁ t₁ ⟨ha, hl₁⟩ => ?_
  refine (Alike.keep ha).bind fun _ s₂ t₂ ⟨ha, hl₂⟩ => ?_
  have hchar : char.links ⊆ s₂.links := by
    rw [hl₂]
    exact List.subset_append_right ..
  exact (runShown ha (sees_taken hchar)).bind fun x s₃ t₃ ⟨ha, _⟩ => runFacts ha rfl

theorem performsAlike_allocate (className : String) (parent : Option Literal)
    (entries : List (String × Literal)) (ha : Session.Agree extra s t) :
    PerformsAlike (allocate className parent entries).perform
      (allocate className parent entries).perform s t extra := by
  refine (runTakeObject? parent ha).bind fun p s₁ t₁ hq => ?_
  obtain ⟨ha, _, hp⟩ := hq
  refine (runMakeFields entries .empty ha).bind fun fields s₂ t₂ hq => ?_
  obtain ⟨ha, hl₂⟩ := hq
  let o : Object := { Object.plain className p with fields := fields }
  have hsees : ∀ l ∈ o.links, s₂.heap.Sees ((valueLinks fields.values ++ extra) ++ s₂.links) l := by
    intro l hl
    rcases Object.links_fields (fun l hl => Or.inl hl) hl with hl | hl
    · exact .held (List.mem_append_left _ (List.mem_append_left _ hl))
    · refine Heap.Agree.sees_links_plain (fun id hid => .held (List.mem_append_right _ ?_)) l hl
      exact hl₂ ▸ hp id hid
  refine (Alike.onHeap (fun id => .object id :: (valueLinks fields.values ++ extra))
    (fun id h => h.object? id = some o) ha ((ha.heap.runAllocObject hsees rfl).mono
      fun _ _ _ hq => ⟨hq.1, hq.2.1.object⟩)).bind fun id s₃ t₃ hq => ?_
  obtain ⟨ha, _, ho⟩ := hq
  have hstored : valueLinks fields.values ⊆ o.links := fun l hl => by
    obtain ⟨v, hv, hlv⟩ := mem_valueLinks.mp hl
    exact Object.mem_links_iff.mpr (Or.inr (Or.inl ⟨v, hv, hlv⟩))
  exact (runHandOver ha ho hstored).bind fun _ s₄ t₄ hq => Alike.pure hq.1

/-! ## Fields, prototypes and payloads -/

theorem performsAlike_own (on : Literal) (key : String) (ha : Session.Agree extra s t) :
    PerformsAlike (own on key).perform (own on key).perform s t extra := by
  refine (runTakeObject on ha).bind fun id s₁ t₁ ⟨ha, _, hid⟩ => ?_
  have hs : s₁.heap.Sees (extra ++ s₁.links) (.object id) := sees_object hid
  have hfield : ∀ v, s₁.heap.ownPlainField? id key = some v →
      s₁.heap.SeesValue (extra ++ s₁.links) v := by
    intro v hv
    obtain ⟨o, ho, hv⟩ := Option.bind_eq_some_iff.mp hv
    exact hs.field ho (Fields.mem_values_of_get? hv)
  refine Alike.heap_bind (runFacts ha ?_)
  rw [ha.heap.ownPlainField?_eq hs, ha.heap.ownGetter?_eq hs, ha.heap.ownSetter?_eq hs,
    ha.heap.snapshot?_eq hfield]

theorem performsAlike_remove (on : Literal) (key : String) (ha : Session.Agree extra s t) :
    PerformsAlike (remove on key).perform (remove on key).perform s t extra := by
  refine (runTakeObject on ha).bind fun id s₁ t₁ ⟨ha, _, hid⟩ => ?_
  refine (Alike.onHeap_add (fun r => valueLinks r.toList) ha
    (ha.heap.runRemoveField (sees_object hid) key)).bind fun old s₂ t₂ ⟨ha, hl₂⟩ => ?_
  refine (runKeepAll ha).bind fun _ s₃ t₃ ⟨ha, hs₃, hold⟩ => ?_
  have hold (v : Value) (hv : old = some v) : s₃.heap.SeesValue (extra ++ s₃.links) v :=
    sees_taken_of_mem (Option.mem_toList.mpr hv) hold
  have hobject : s₃.heap.SeesValue (extra ++ s₃.links) (.object id) :=
    (sees_object (hs₃ (hl₂ ▸ hid))).value
  refine Alike.heap_bind (runFacts ha ?_)
  rw [ha.heap.snapshot?_eq hold, ha.heap.snapshot_eq hobject]

theorem performsAlike_setPrototype (on : Literal) (parent : Option Literal)
    (ha : Session.Agree extra s t) :
    PerformsAlike (setPrototype on parent).perform (setPrototype on parent).perform s t extra := by
  refine (runTakeObject on ha).bind fun id s₁ t₁ ⟨ha, _, hid⟩ => ?_
  refine (runTakeObject? parent ha).bind fun p s₂ t₂ ⟨ha, hs₂, hp⟩ => ?_
  have hset := ha.heap.runSetPrototype (sees_object (hs₂ hid)) fun x hx => sees_object (hp x hx)
  refine (Alike.onHeap_add (resultLinks fun _ => []) ha
    (hset.mono fun r h k ⟨ha, hr, _⟩ => ?_)).bind fun r s₃ t₃ ⟨ha, _⟩ => ?_
  · rcases hr with rfl | rfl
    · exact ha
    · exact ha
  · exact (Alike.orFail ha).bind fun _ s₄ t₄ ⟨ha, _⟩ => runFact "done" ha rfl

theorem performsAlike_payload (on : Literal) (ha : Session.Agree extra s t) :
    PerformsAlike (payload on).perform (payload on).perform s t extra := by
  refine (runTakeObject on ha).bind fun id s₁ t₁ ⟨ha, _, hid⟩ => ?_
  have hs : s₁.heap.Sees (extra ++ s₁.links) (.object id) := sees_object hid
  refine Alike.heap_bind (runFacts ha ?_)
  rw [ha.heap.payload?_eq hs]
  refine ha.heap.payloadFacts_eq fun q hq l hl => ?_
  obtain ⟨o, ho, hq⟩ := Option.bind_eq_some_iff.mp hq
  exact hs.payload ho hq hl

theorem performsAlike_pop (on : Literal) (ha : Session.Agree extra s t) :
    PerformsAlike (pop on).perform (pop on).perform s t extra := by
  refine (runTakeObject on ha).bind fun id s₁ t₁ ⟨ha, _, hid⟩ => ?_
  refine (Alike.onHeap_add (fun r => valueLinks r.toList) ha
    (ha.heap.runPop (sees_object hid))).bind fun old s₂ t₂ ⟨ha, hl₂⟩ => ?_
  refine (runKeepAll ha).bind fun _ s₃ t₃ ⟨ha, hs₃, hold⟩ => ?_
  have hold (v : Value) (hv : old = some v) : s₃.heap.SeesValue (extra ++ s₃.links) v :=
    sees_taken_of_mem (Option.mem_toList.mpr hv) hold
  have hobject : s₃.heap.Sees (extra ++ s₃.links) (.object id) :=
    sees_object (hs₃ (hl₂ ▸ hid))
  refine Alike.heap_bind (runFacts ha ?_)
  rw [ha.heap.snapshot?_eq hold, ha.heap.arrayLength?_eq hobject]

theorem performsAlike_elements (on : Literal) (ha : Session.Agree extra s t) :
    PerformsAlike (elements on).perform (elements on).perform s t extra := by
  refine (runTakeObject on ha).bind fun id s₁ t₁ ⟨ha, _, hid⟩ => Alike.heap_bind ?_
  rw [ha.heap.elementsShown_eq (sees_object hid)]
  exact runFact "v" ha rfl

theorem performsAlike_clearPayload (on : Literal) (ha : Session.Agree extra s t)
    (hclear : ∀ {id h k}, s.detachment? (.object (clearPayload on)) = some id →
      Heap.Detach id h k → History.Admits h → History.Admits k) :
    PerformsAlike (clearPayload on).perform (clearPayload on).perform s t extra := by
  refine (runTakeObject on ha).bind_across (fun id s₁ t₁ hrun hq => ?_) fun _ _ _ _ => id
  obtain ⟨ha, _, hid⟩ := hq
  have hkeep {h k : Heap} (hd : Relation.ReflGen (Heap.Detach id) h k)
      (hp : History.Admits h) : History.Admits k := by
    cases hd with
    | refl => exact hp
    | single hd => exact hclear (Session.detachment?_of_ok hrun) hd hp
  have hcleared : Together (HeapM.clearPayload id) (HeapM.clearPayload id) s₁.heap t₁.heap
      fun _ h k => Heap.Agree (extra ++ s₁.links) h k :=
    (ha.heap.toMatches.runClearPayload (sees_object hid)).mono fun _ h k hq =>
      ⟨hq.1, hkeep hq.2.1 ha.heap.leftAdmits, hkeep hq.2.2 ha.heap.rightAdmits⟩
  refine (runQuietly ha hcleared).bind fun had s₂ t₂ hq => Alike.heap_bind (runFacts hq.1 ?_)
  obtain ⟨ha, hl₂⟩ := hq
  rw [ha.heap.payload?_eq (sees_object (hl₂ ▸ hid))]

omit [History] in
theorem perform_setPayload (on : Literal) (spec : PayloadSpec) :
    (setPayload on spec).perform = makeAttachment on spec >>= fun a =>
      StepM.onHeap (HeapM.setPayload a.1 a.2) >>= fun _ => fact "payload" (.boolean true) := by
  simp only [makeAttachment, bind_assoc, pure_bind]
  rfl

theorem runMakeAttachment (on : Literal) (spec : PayloadSpec) (ha : Session.Agree extra s t) :
    Alike (makeAttachment on spec) (makeAttachment on spec) s t extra fun a s' t' =>
      Session.Agree extra s' t' ∧ .object a.1 ∈ s'.links ∧ a.2.links ⊆ s'.links := by
  refine (runTakeObject on ha).bind fun id s₁ t₁ hq => ?_
  obtain ⟨ha, _, hid⟩ := hq
  refine (runMakePayload spec ha).bind fun p s₂ t₂ hq => ?_
  exact Alike.pure ⟨hq.1, hq.2.1 hid, hq.2.2⟩

omit [History] in
/-- A payload is attached, if there is an object to attach it to. Something else may be known of the
heaps afterwards. -/
theorem performsAlike_setPayload {before after : History} (on : Literal) (spec : PayloadSpec)
    (ha : @Session.Agree before extra s t)
    (hset : ∀ {id p h k}, s.attachment? (.object (setPayload on spec)) = some (id, p) →
      Heap.Attach id p h k → before.Admits h → after.Admits k)
    (hnone : s.attachment? (.object (setPayload on spec)) = none →
      ∀ h, before.Admits h → after.Admits h) :
    PerformsAlike (setPayload on spec).perform (setPayload on spec).perform s t extra := by
  rw [perform_setPayload]
  refine (@runMakeAttachment before s t extra on spec ha).bind_across (fun a s₁ t₁ hrun hq => ?_)
    fun cause s₁ hrun => hnone (Session.attachment?_of_error hrun)
  obtain ⟨ha, hid, hp⟩ := hq
  have hattached : Together (HeapM.setPayload a.1 a.2) (HeapM.setPayload a.1 a.2) s₁.heap t₁.heap
      fun _ h k => Heap.Agree (extra ++ s₁.links) h k := by
    obtain ⟨⟨⟨hmatch, hleft, hright⟩, _⟩, _⟩ := ha
    have hid₁ := Session.attachment?_of_ok hrun
    refine (hmatch.runSetPayload (sees_object hid) fun l hl => ?_).mono fun _ h k hq =>
      ⟨hq.1, hset hid₁ hq.2.1 hleft, hset hid₁ hq.2.2 hright⟩
    exact .held (List.mem_append_right _ (hp hl))
  exact (runQuietly ha hattached).bind fun _ s₂ t₂ hq => runFact "payload" hq.1 rfl

/-- **Steps about objects** perform the same on both sides, except for the list of releases. -/
theorem performsAlike (r : ObjectRequest) (hr : r ≠ .drops) (ha : Session.Agree extra s t)
    (hs : s.Allows (.object r)) : PerformsAlike r.perform r.perform s t extra := by
  cases r with
  | create className parent =>
    refine (runTakeObject? parent ha).bind fun p s₁ t₁ hq => ?_
    obtain ⟨ha, _, hp⟩ := hq
    have hnew := ha.heap.runNewWithPrototype className fun x hx => sees_object (hp x hx)
    exact (Alike.onHeap_add (fun id => [.object id]) ha (hnew.mono fun _ _ _ hr => hr.1)).bind
      fun id s₂ t₂ hq => Alike.pure hq.1
  | allocate className parent entries => exact performsAlike_allocate className parent entries ha
  | lookup on key =>
    refine runTake_bind on ha fun v s₁ t₁ ha hv => Alike.heap_bind ?_
    rw [ha.heap.lookupFieldOf_eq hv]
    exact runValueOf ha (ha.heap.sees_lookupFieldOf hv key)
  | assign on l key =>
    refine (runTake on ha).bind fun target s₁ t₁ hq => ?_
    obtain ⟨ha, _, ht⟩ := hq
    refine (runTake l ha).bind fun v s₂ t₂ hq => ?_
    obtain ⟨ha, hs₂, hv⟩ := hq
    have ht : target.links ⊆ s₂.links := List.Subset.trans ht hs₂
    refine (runQuietly ha (ha.heap.runAssignFieldOf (sees_taken ht) (sees_taken hv) key)).bind
      fun _ s₃ t₃ hq => ?_
    obtain ⟨ha, hl₃⟩ := hq
    exact runFactOf "on" ha (sees_taken (hl₃ ▸ ht))
  | insertField on l key =>
    refine (runTakeObject on ha).bind fun id s₁ t₁ hq => ?_
    obtain ⟨ha, _, hid⟩ := hq
    refine (runTake l ha).bind fun v s₂ t₂ hq => ?_
    obtain ⟨ha, hs₂, hv⟩ := hq
    have hid : .object id ∈ s₂.links := hs₂ hid
    have hinsert := ha.heap.runInsertField (sees_object hid) (sees_taken hv) key
    refine (runQuietly ha (hinsert.mono fun _ _ _ hr => hr.1)).bind fun _ s₃ t₃ hq => ?_
    obtain ⟨ha, hl₃⟩ := hq
    exact runFactOf "on" ha (sees_object (hl₃ ▸ hid)).value
  | own on key => exact performsAlike_own on key ha
  | remove on key => exact performsAlike_remove on key ha
  | keys on =>
    refine (runTakeObject on ha).bind fun id s₁ t₁ hq => Alike.heap_bind ?_
    obtain ⟨ha, _, hid⟩ := hq
    rw [ha.heap.keys_eq (sees_object hid)]
    exact runFact "keys" ha rfl
  | describe on =>
    refine (runTakeObject on ha).bind fun id s₁ t₁ hq => Alike.heap_bind ?_
    obtain ⟨ha, _, hid⟩ := hq
    have hs : s₁.heap.Sees (extra ++ s₁.links) (.object id) := sees_object hid
    rw [ha.heap.object?_eq hs]
    refine (Alike.required ha).bind fun o s₂ t₂ hq => runFacts hq.1 ?_
    obtain ⟨ha₂, _⟩ := hq
    exact ha.heap.description_eq hs o
  | setClass on className =>
    refine (runTakeObject on ha).bind fun id s₁ t₁ hq => ?_
    obtain ⟨ha, _, hid⟩ := hq
    refine (runQuietly ha (ha.heap.runSetClassName (sees_object hid) className)).bind
      fun _ s₂ t₂ hq => Alike.heap_bind ?_
    obtain ⟨ha, hl₂⟩ := hq
    rw [ha.heap.object?_eq (sees_object (hl₂ ▸ hid))]
    exact (Alike.required ha).bind fun o s₃ t₃ hq => runFact "class" hq.1 rfl
  | prototype on =>
    refine (runTakeObject on ha).bind fun id s₁ t₁ hq => Alike.heap_bind ?_
    obtain ⟨ha, _, hid⟩ := hq
    have hs : s₁.heap.Sees (extra ++ s₁.links) (.object id) := sees_object hid
    rw [ha.heap.prototype?_eq hs]
    refine runValueOf ha (Heap.seesValue_ofOption fun p hp => ?_)
    obtain ⟨o, ho, hp⟩ := Option.bind_eq_some_iff.mp hp
    exact hs.prototype ho hp
  | setPrototype on parent => exact performsAlike_setPrototype on parent ha
  | same a b =>
    refine (runTakeObject a ha).bind fun x s₁ t₁ hq => ?_
    obtain ⟨ha, _, _⟩ := hq
    exact (runTakeObject b ha).bind fun y s₂ t₂ hq => runFacts hq.1 rfl
  | setPayload on spec => exact performsAlike_setPayload on spec ha hs.attach fun _ _ => id
  | payload on => exact performsAlike_payload on ha
  | clearPayload on => exact performsAlike_clearPayload on ha hs.detach
  | drops => exact absurd rfl hr
  | arrayLength on =>
    refine (runTakeObject on ha).bind fun id s₁ t₁ hq => Alike.heap_bind ?_
    obtain ⟨ha, _, hid⟩ := hq
    rw [ha.heap.arrayLength?_eq (sees_object hid)]
    exact runFact "len" ha rfl
  | elements on => exact performsAlike_elements on ha
  | getIndex on index =>
    refine (runTakeObject on ha).bind fun id s₁ t₁ hq => Alike.heap_bind ?_
    obtain ⟨ha, _, hid⟩ := hq
    have hs : s₁.heap.Sees (extra ++ s₁.links) (.object id) := sees_object hid
    rw [ha.heap.elementAt_eq hs]
    exact runValueOf ha (Heap.Matches.sees_elementAt hs index)
  | setIndex on l index =>
    refine (runTakeObject on ha).bind fun id s₁ t₁ hq => ?_
    obtain ⟨ha, _, hid⟩ := hq
    refine (runTake l ha).bind fun v s₂ t₂ hq => ?_
    obtain ⟨ha, hs₂, hv⟩ := hq
    refine (runQuietly ha (ha.heap.runSetElement (sees_object (hs₂ hid)) (sees_taken hv)
      index)).bind fun possible s₃ t₃ hq => ?_
    obtain ⟨ha, hl₃⟩ := hq
    exact runLengthFacts possible ha (hl₃ ▸ hs₂ hid)
  | setLength on length =>
    refine (runTakeObject on ha).bind fun id s₁ t₁ hq => ?_
    obtain ⟨ha, _, hid⟩ := hq
    refine (runQuietly ha (ha.heap.runSetLength (sees_object hid) length)).bind
      fun possible s₂ t₂ hq => runLengthFacts possible hq.1 (hq.2 ▸ hid)
  | push on l =>
    refine (runTakeObject on ha).bind fun id s₁ t₁ hq => ?_
    obtain ⟨ha, _, hid⟩ := hq
    refine (runTake l ha).bind fun v s₂ t₂ hq => ?_
    obtain ⟨ha, hs₂, hv⟩ := hq
    exact (runQuietly ha (ha.heap.runPush (sees_object (hs₂ hid)) (sees_taken hv))).bind
      fun length s₃ t₃ hq => runFact "len" hq.1 rfl
  | pop on => exact performsAlike_pop on ha
  | unitCount on =>
    refine (runTakeObject on ha).bind fun id s₁ t₁ hq => Alike.heap_bind ?_
    obtain ⟨ha, _, hid⟩ := hq
    rw [ha.heap.text?_eq (sees_object hid).value]
    exact runFact "len" ha rfl
  | charAt on index =>
    exact (runTakeObject on ha).bind fun id s₁ t₁ hq => runCharFacts index hq.1 hq.2.2

end ObjectRequest

end ScriptCore
