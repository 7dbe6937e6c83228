import ScriptCore.Environment
import ScriptCore.Proofs.Agreement.Objects

/-!
# Assigning on heaps that agree

Assignments to fields go to the prototype link, to the length of an array, or to a plain field.
With them come removal, accessors, payloads and the variables of scopes. What is taken off an object
is held by the caller afterwards, everything else that is lost is let go.
-/

namespace ScriptCore

namespace HeapM

theorem assignField_eq_insertField {key : String} (id : NodeId) (v : Value) (hp : key ≠ protoKey)
    (hl : key ≠ "length") : assignField id key v = insertField id key v := by
  have hlength : decide (key = "length") = false := decide_eq_false hl
  unfold assignField
  rw [if_neg hp]
  simp only [hlength, Bool.false_and, Bool.false_eq_true, if_false]
  rfl

end HeapM

/-! ## Variables -/

namespace Scope

def lost (s : Scope) (name : String) : List Pending :=
  (s.bindings.get? name).toList.flatMap fun old => Pending.ofValue old.value

/-- The links that a scope loses when a variable is defined in it. -/
def gone (s : Scope) (name : String) : List Link :=
  (s.bindings.get? name).toList.flatMap fun old => old.value.links

theorem references_lost (s : Scope) (name : String) :
    (s.lost name).flatMap Pending.references = (s.gone name).map Link.target := by
  rw [lost, gone]
  cases s.bindings.get? name with
  | none => rfl
  | some old => simp

theorem payloads_lost (s : Scope) (name : String) : (s.lost name).flatMap Pending.payloads = [] := by
  rw [lost]
  cases s.bindings.get? name with
  | none => rfl
  | some old => simpa using Pending.payloads_ofValue old.value

theorem steady_insert (s : Scope) {name : String} (b : Binding)
    (hmutable : ∀ old, s.bindings.get? name = some old → old.isMutable = true) :
    (Node.scope s).Steady (.scope { s with bindings := s.bindings.insert name b }) where
  payload := rfl
  text := rfl
  bound := rfl
  identity := rfl
  outer := rfl
  constants {other old} hold hconstant := by
    have hne : other ≠ name := by
      intro he
      subst he
      rw [hmutable old hold] at hconstant
      cases hconstant
    show (s.bindings.insert name b).get? other = some old
    rw [Fields.get?_insert_ne _ _ hne]
    exact hold

end Scope

namespace Heap

theorem setBinding_of_scope? {h : Heap} {id : NodeId} {s : Scope} (hs : h.scope? id = some s)
    (name : String) (binding : Binding) :
    h.setBinding id name binding =
      h.replaceNode id (.scope { s with bindings := s.bindings.insert name binding })
        (s.lost name) := by
  rw [setBinding, hs]
  rfl

/-- A variable is defined, and the value before is pending. -/
theorem Matches.openedBinding {h k : Heap} {links : List Link} {id : NodeId} {s : Scope} {v : Value}
    (ha : Matches links h k) (hs : h.Sees links (.scope id)) (hscope : h.scope? id = some s)
    (hv : h.SeesValue links v) (name : String) (isMutable : Bool) :
    Matches (s.gone name ++ links)
      (h.opened id (.scope { s with bindings := s.bindings.insert name ⟨v, isMutable⟩ }) (s.lost name))
      (k.opened id (.scope { s with bindings := s.bindings.insert name ⟨v, isMutable⟩ })
        (s.lost name)) := by
  have hn : h.node? id = some (.scope s) := scope?_eq_some_iff.mp hscope
  have hold : ∀ l ∈ s.links, h.Sees links l := fun l hl => .stored hs hn hl
  refine ha.opened hn hs rfl (fun l hl => ?_) (s.references_lost name) (fun l hl => ?_)
    (fun l hl => ?_) fun p hp => by cases hp
  · rcases Scope.mem_links_iff.mp hl with ⟨b, hb, hl⟩ | ho
    · rcases Fields.mem_values_insert hb with rfl | hb
      · exact hv l hl
      · exact hold l (Scope.mem_links_iff.mpr (Or.inl ⟨b, hb, hl⟩))
    · exact hold l (Scope.mem_links_iff.mpr (Or.inr ho))
  · obtain ⟨b, hb, hl⟩ := List.mem_flatMap.mp hl
    exact hold l (Scope.mem_links_iff.mpr
      (Or.inl ⟨b, Fields.mem_values_of_get? (Option.mem_toList.mp hb), hl⟩))
  · rcases Scope.mem_links_iff.mp hl with ⟨b, hb, hl⟩ | ho
    · rcases Fields.mem_values_insert_or name ⟨v, isMutable⟩ hb with hb | hb
      · exact Or.inl (Scope.mem_links_iff.mpr (Or.inl ⟨b, hb, hl⟩))
      · exact Or.inr (List.mem_append_left _
          (List.mem_flatMap.mpr ⟨b, Option.mem_toList.mpr hb, hl⟩))
    · exact Or.inl (Scope.mem_links_iff.mpr (Or.inr ho))

end Heap

namespace Heap.Agree

variable [History] {h k : Heap} {links : List Link} {v : Value} {id : NodeId} {key : String}
  (ha : Agree links h k)

include ha

/-! ## Fields -/

theorem runAssignLength (hs : h.Sees links (.object id)) (v : Value) :
    Together (HeapM.assignLength id v) (HeapM.assignLength id v) h k fun _ h' k' =>
      Agree links h' k' := by
  rw [HeapM.assignLength]
  cases Elements.lengthOf? v with
  | none => exact Together.pure ha
  | some length => exact ha.runSetLength hs length

theorem runAssignField (hs : h.Sees links (.object id)) (hv : h.SeesValue links v) (key : String) :
    Together (HeapM.assignField id key v) (HeapM.assignField id key v) h k fun _ h' k' =>
      Agree links h' k' := by
  unfold HeapM.assignField
  split
  · cases v with
    | object p =>
      have hp : ∀ x, some p = some x → h.Sees links (.object x) := fun x hx =>
        Option.some.inj hx ▸ hv.object
      exact Together.discard ((ha.runSetPrototype hs hp).mono fun _ h' k' hr => hr.1)
    | null =>
      have hp : ∀ x, none = some x → h.Sees links (.object x) := fun x hx => by cases hx
      exact Together.discard ((ha.runSetPrototype hs hp).mono fun _ h' k' hr => hr.1)
    | _ => exact Together.pure ha
  · refine Together.look_bind (ha.isArray_eq hs.value) ?_
    split
    · exact Together.discard (ha.runAssignLength hs v)
    · exact (ha.runInsertField hs hv key).mono fun _ _ _ hr => hr.1

theorem runAssignFieldOf {target : Value} (ht : h.SeesValue links target)
    (hv : h.SeesValue links v) (key : String) :
    Together (HeapM.assignFieldOf target key v) (HeapM.assignFieldOf target key v) h k
      fun _ h' k' => Agree links h' k' := by
  cases target with
  | object id => exact ha.runAssignField ht.object hv key
  | _ => exact Together.pure ha

omit [History] ha in
theorem mem_valueLinks_erase {fields : Fields Value} {l : Link}
    (hl : l ∈ valueLinks (fields.erase key).values) : l ∈ valueLinks fields.values := by
  obtain ⟨w, hw, hl⟩ := mem_valueLinks.mp hl
  exact mem_valueLinks.mpr ⟨w, Fields.mem_values_erase hw, hl⟩

/-- What is taken off an object is held. -/
theorem runRemoveField (hs : h.Sees links (.object id)) (key : String) :
    Together (HeapM.removeField id key) (HeapM.removeField id key) h k fun r h' k' =>
      Agree (valueLinks r.toList ++ links) h' k' := by
  refine Together.get_bind ?_
  obtain ⟨o, ho⟩ := ha.exists_object hs
  rw [ha.object?_eq hs, ho]
  dsimp only
  cases hv : o.fields.get? key with
  | none => exact Together.pure ha
  | some v =>
    have hgone : (valueLinks [v]).map Link.target = v.references := by
      rw [valueLinks_singleton, v.map_target_links]
    refine Together.set_bind (Together.pure ?_)
    rw [← hgone, Option.toList_some]
    refine ha.takeOut hs ho (fun l hl => ?_) (fun l hl => ?_) (fun l hl => ?_) rfl
      (.of_exotic rfl rfl)
    · have hl : l ∈ [] ∨ l ∈ o.links :=
        Object.links_fields (fun l hl => Or.inr (mem_valueLinks_erase hl)) hl
      exact hl.resolve_left List.not_mem_nil
    · obtain ⟨w, hw, hlw⟩ := mem_valueLinks.mp hl
      obtain rfl := List.mem_singleton.mp hw
      exact Object.mem_links_iff.mpr (Or.inr (Or.inl ⟨w, Fields.mem_values_of_get? hv, hlw⟩))
    · refine Object.links_fields (o := { o with fields := o.fields.erase key }) (fun l hl => ?_) hl
      obtain ⟨w, hw, hl⟩ := mem_valueLinks.mp hl
      rcases Fields.mem_values_erase_or key hw with hw | hw
      · exact Or.inr (mem_valueLinks.mpr ⟨w, hw, hl⟩)
      · obtain rfl := Option.some.inj (hv.symm.trans hw)
        exact Or.inl (links_subset_valueLinks (List.mem_singleton.mpr rfl) hl)

theorem runSetClassName (hs : h.Sees links (.object id)) (className : String) :
    Together (HeapM.setClassName id className) (HeapM.setClassName id className) h k
      fun _ h' k' => Agree links h' k' := by
  refine Together.of_modify ?_
  obtain ⟨o, ho⟩ := ha.exists_object hs
  rw [ha.object?_eq hs, ho]
  exact ha.setObject [] hs ho (fun l hl => Or.inr hl) (by simp) (fun l hl => Or.inl hl) rfl
    (.of_exotic rfl rfl)

/-! ## Accessors -/

omit [History] ha in
theorem mem_toList_get?_or {fields : Fields NodeId} {g : NodeId} (key : String) (new : NodeId)
    (hg : g ∈ fields.values) :
    Link.object g ∈ (fields.get? key).toList.map Link.object ++ links ∨
      g ∈ (fields.insert key new).values := by
  rcases Fields.mem_values_insert_or key new hg with hg | hg
  · exact Or.inr hg
  · refine Or.inl (List.mem_append_left _ (List.mem_map_of_mem ?_))
    exact Option.mem_toList.mpr hg

omit [History] ha in
theorem exists_of_mem_map_get? {fields : Fields NodeId} {l : Link}
    (hl : l ∈ (fields.get? key).toList.map Link.object) : ∃ g ∈ fields.values, l = .object g := by
  obtain ⟨g, hg, rfl⟩ := List.mem_map.mp hl
  exact ⟨g, Fields.mem_values_of_get? (Option.mem_toList.mp hg), rfl⟩

omit [History] ha in
theorem mem_insert_or {fields : Fields NodeId} {g new : NodeId}
    (hg : g ∈ (fields.insert key new).values) :
    Link.object g ∈ [Link.object new] ∨ g ∈ fields.values := by
  rcases Fields.mem_values_insert hg with rfl | hg
  · exact Or.inl (List.mem_singleton.mpr rfl)
  · exact Or.inr hg

theorem runAddGetter (hs : h.Sees links (.object id)) {getter : NodeId}
    (hg : h.Sees links (.object getter)) (key : String) :
    Together (HeapM.addGetter id key getter) (HeapM.addGetter id key getter) h k fun _ h' k' =>
      Agree links h' k' ∧ (.object id ∈ links → ∀ o, h.object? id = some o →
        h'.object? id = some { o with getters := o.getters.insert key getter }) := by
  refine Together.get_bind ?_
  obtain ⟨o, ho⟩ := ha.exists_object hs
  rw [ha.object?_eq hs, ho]
  refine Together.set ((ha.replaceObject { o with getters := o.getters.insert key getter }
    [.object getter]
    ((o.getters.get? key).toList.map .object) hs ho
    (fun l => Object.links_getters fun g => mem_insert_or) hg.value
    (references_map_reference_toList _) (fun l hl => ?_)
    (fun l => Object.links_getters (o := { o with getters := o.getters.insert key getter })
      fun g => mem_toList_get?_or key getter) (fun p => Or.inl) (.of_exotic rfl rfl)
    (Pending.payloads_map_reference _)).imp_right fun hnode hm o' ho' => ?_)
  · exact Object.mem_links_iff.mpr (Or.inr (Or.inr (Or.inl (exists_of_mem_map_get? hl))))
  · obtain rfl := Option.some.inj ho'
    exact hnode hm

theorem runAddSetter (hs : h.Sees links (.object id)) {setter : NodeId}
    (hg : h.Sees links (.object setter)) (key : String) :
    Together (HeapM.addSetter id key setter) (HeapM.addSetter id key setter) h k fun _ h' k' =>
      Agree links h' k' ∧ (.object id ∈ links → ∀ o, h.object? id = some o →
        h'.object? id = some { o with setters := o.setters.insert key setter }) := by
  refine Together.get_bind ?_
  obtain ⟨o, ho⟩ := ha.exists_object hs
  rw [ha.object?_eq hs, ho]
  refine Together.set ((ha.replaceObject { o with setters := o.setters.insert key setter }
    [.object setter]
    ((o.setters.get? key).toList.map .object) hs ho
    (fun l => Object.links_setters fun g => mem_insert_or) hg.value
    (references_map_reference_toList _) (fun l hl => ?_)
    (fun l => Object.links_setters (o := { o with setters := o.setters.insert key setter })
      fun g => mem_toList_get?_or key setter) (fun p => Or.inl) (.of_exotic rfl rfl)
    (Pending.payloads_map_reference _)).imp_right fun hnode hm o' ho' => ?_)
  · exact Object.mem_links_iff.mpr (Or.inr (Or.inr (Or.inr (Or.inl (exists_of_mem_map_get? hl)))))
  · obtain rfl := Option.some.inj ho'
    exact hnode hm

/-! ## Scopes -/

theorem runNewScope {outer : Option NodeId}
    (ho : ∀ id, outer = some id → h.Sees links (.scope id)) :
    Together (HeapM.newScope outer) (HeapM.newScope outer) h k fun id h' k' =>
      Agree (.scope id :: links) h' k' ∧ h'.scope? id = some (.plain outer) := by
  refine ha.runAllocScope fun l hl => ?_
  rcases Scope.mem_links_iff.mp hl with ⟨b, hb, _⟩ | ⟨id, hid, rfl⟩
  · exact absurd hb List.not_mem_nil
  · exact ho id hid

/-- A variable that is no constant is written; the value before is let go. In a scope that is held it
is there afterwards. -/
theorem setBinding {s : Scope} (hs : h.Sees links (.scope id)) (hscope : h.scope? id = some s)
    (hv : h.SeesValue links v) (name : String)
    (hmutable : ∀ old, s.bindings.get? name = some old → old.isMutable = true) :
    Agree links (h.setBinding id name ⟨v, true⟩) (k.setBinding id name ⟨v, true⟩) ∧
      (.scope id ∈ links → (h.setBinding id name ⟨v, true⟩).scope? id =
        some { s with bindings := s.bindings.insert name ⟨v, true⟩ }) := by
  rw [Heap.setBinding_of_scope? hscope, Heap.setBinding_of_scope? ((ha.scope?_eq hs).trans hscope)]
  refine (ha.replaceNode (ha.toMatches.openedBinding hs hscope hv name true)
    (scope?_eq_some_iff.mp hscope) hs (s.steady_insert _ hmutable) (s.references_lost name)
    (s.payloads_lost name)).imp_right fun hnode hm => ?_
  exact scope?_eq_some_iff.mpr (hnode hm)

theorem runAssignVariable (hs : h.Sees links (.scope id)) (hv : h.SeesValue links v)
    (name : String) :
    Together (HeapM.assignVariable id name v) (HeapM.assignVariable id name v) h k
      fun r h' k' => Agree links h' k' ∧ ∀ e, r = .error e → e.value? = none := by
  refine Together.get_bind ?_
  rw [ha.bindingScope?_eq hs]
  cases hx : h.bindingScope? id name with
  | none => exact Together.pure ⟨ha, fun e he => Except.error.inj he ▸ rfl⟩
  | some x =>
    have hsees := ha.sees_bindingScope? hs hx
    dsimp only
    rw [ha.ownBinding?_eq hsees]
    split
    · next hmutable =>
      obtain ⟨s, hscope⟩ := ha.exists_scope hsees
      have hset := ha.setBinding hsees hscope hv name fun old hold => by
        rwa [ownBinding?, hscope, Option.bind_some, hold, Option.any_some] at hmutable
      exact Together.set_bind (Together.pure ⟨hset.1, by simp⟩)
    · exact Together.pure ⟨ha, fun e he => Except.error.inj he ▸ rfl⟩

end Heap.Agree

namespace Heap.Matches

variable {h k : Heap} {links : List Link} {id : NodeId} {v : Value} (ha : Matches links h k)

/-! ## Definitions -/

include ha in
theorem runDefine (hs : h.Sees links (.scope id)) (hv : h.SeesValue links v) (name : String)
    (isMutable : Bool) :
    Together (HeapM.define id name v isMutable) (HeapM.define id name v isMutable) h k
      fun _ h' k' => Matches links h' k' ∧ Define id name h h' ∧ Define id name k k' := by
  obtain ⟨s, hscope⟩ := ha.exists_scope hs
  have hk : k.scope? id = some s := (ha.scope?_eq hs).trans hscope
  have hopen := ha.openedBinding hs hscope hv name isMutable
  have hleft := hopen.left
  have hright := hopen.right
  rw [List.map_append, ← s.references_lost] at hleft hright
  apply Together.of_modify
  rw [Heap.setBinding_of_scope? hscope, Heap.setBinding_of_scope? hk]
  exact ⟨(hopen.replaceNode (scope?_eq_some_iff.mp hscope) (s.references_lost name)).1,
    .intro (scope?_eq_some_iff.mp hscope) hleft (s.payloads_lost name),
    .intro (scope?_eq_some_iff.mp hk) hright (s.payloads_lost name)⟩

/-! ## Payloads -/

theorem references_map_payload_toList (p : Option Payload) :
    (p.toList.map Pending.payload).flatMap Pending.references =
      (p.toList.flatMap Payload.links).map Link.target := by
  cases p with
  | none => rfl
  | some p => simp [Pending.references]

include ha

/-- A payload is attached on both sides. -/
theorem runSetPayload (hs : h.Sees links (.object id)) {p : Payload}
    (hp : ∀ l ∈ p.links, h.Sees links l) :
    Together (HeapM.setPayload id p) (HeapM.setPayload id p) h k fun _ h' k' =>
      Matches links h' k' ∧ Attach id p h h' ∧ Attach id p k k' := by
  refine Together.get_bind ?_
  obtain ⟨o, ho⟩ := ha.exists_object hs
  have hk : k.object? id = some o := (ha.object?_eq hs).trans ho
  rw [hk, ho]
  have hg := references_map_payload_toList o.payload
  have hopen : Matches (o.payload.toList.flatMap Payload.links ++ links)
      (h.opened id (.object { o with payload := some p }) (o.payload.toList.map .payload))
      (k.opened id (.object { o with payload := some p }) (o.payload.toList.map .payload)) :=
    ha.openedObject p.links hs ho (fun l hl => ?_) hp hg (fun l hl => ?_) (fun l hl => ?_)
      fun p => Or.inl
  · have hleft := hopen.left
    have hright := hopen.right
    rw [List.map_append, ← hg] at hleft hright
    exact Together.set ⟨(hopen.replaceNode (object?_eq_some_iff.mp ho) hg).1, .intro ho hleft,
      .intro hk hright⟩
  · refine (Object.links_payload hl).imp_left fun hl => ?_
    simpa using hl
  · obtain ⟨q, hq, hl⟩ := List.mem_flatMap.mp hl
    exact Object.mem_links_iff.mpr
      (Or.inr (Or.inr (Or.inr (Or.inr (Or.inl ⟨q, Option.mem_toList.mp hq, hl⟩)))))
  · exact (Object.links_payload (o := { o with payload := some p }) hl).imp_left
      (List.mem_append_left _)

/-- A payload is taken off and let go on both sides, if there is one. -/
theorem runClearPayload (hs : h.Sees links (.object id)) :
    Together (HeapM.clearPayload id) (HeapM.clearPayload id) h k fun _ h' k' =>
      Matches links h' k' ∧ Relation.ReflGen (Detach id) h h' ∧
        Relation.ReflGen (Detach id) k k' := by
  refine Together.get_bind ?_
  obtain ⟨o, ho⟩ := ha.exists_object hs
  have hk : k.object? id = some o := (ha.object?_eq hs).trans ho
  rw [hk, ho]
  dsimp only
  cases hp : o.payload with
  | none => exact Together.pure ⟨ha, .refl, .refl⟩
  | some p =>
    have hrefs : [Pending.payload p].flatMap Pending.references = p.links.map Link.target := by
      rw [p.map_target_links, List.flatMap_cons, List.flatMap_nil, List.append_nil]
      rfl
    have hoff : Matches (p.links ++ links) (h.detached id o p) (k.detached id o p) := by
      rw [detached, detached, holdPending, holdPending, hrefs]
      refine ha.takeOut hs ho (fun l hl => ?_) (fun l hl => ?_) (fun l hl => ?_) rfl
      · exact (Object.links_payload hl).resolve_left (by simp)
      · exact Object.mem_links_iff.mpr (Or.inr (Or.inr (Or.inr (Or.inr (Or.inl ⟨p, hp, hl⟩)))))
      · have := Object.links_payload (o := { o with payload := none }) (p := o.payload) hl
        rw [hp] at this
        simpa using this
    have hleft := hoff.left
    have hright := hoff.right
    rw [List.map_append, ← hrefs] at hleft hright
    exact Together.set_bind (Together.pure ⟨hoff.letGo hrefs, .single (.intro ho hp hleft),
      .single (.intro hk hp hright)⟩)

end Heap.Matches

end ScriptCore
