import ScriptCore.Proofs.Agreement.FunctionSteps

/-!
# Steps about scopes on sessions that agree

A scope that has a name is held by the session. Under a name that is given to another scope, or
dropped, it is let go.
-/

namespace ScriptCore

namespace Session.Agree

variable [History] {s t : Session} {extra : List Link} {id : NodeId} {name : String}

theorem insertScope (name : String) (ha : Agree (.scope id :: extra) s t) :
    Agree ((s.scopes.get? name).toList.map .scope ++ extra)
      { s with scopes := s.scopes.insert name id }
      { t with scopes := s.scopes.insert name id } := by
  obtain ⟨r, rfl⟩ := ha.exists_runtime
  refine ha.change ?_ rfl rfl rfl ha.distinct
  have hfields := (s.scopes.perm_values_insert name id).map Link.scope
  refine List.perm_iff_count.mpr fun l => ?_
  have hcount := hfields.count_eq l
  simp only [List.map_append, List.map_cons, List.count_append, List.count_cons] at hcount
  simp only [links, List.count_append, List.count_cons, List.cons_append]
  omega

theorem eraseScope (ha : Agree extra s t) (hid : s.scopes.get? name = some id) :
    Agree (.scope id :: extra) { s with scopes := s.scopes.erase name }
      { t with scopes := s.scopes.erase name } := by
  obtain ⟨r, rfl⟩ := ha.exists_runtime
  refine ha.change ?_ rfl rfl rfl ha.distinct
  have hfields := (s.scopes.perm_values_erase name).map Link.scope
  rw [hid, Option.toList_some] at hfields
  refine List.perm_iff_count.mpr fun l => ?_
  have hcount := hfields.count_eq l
  simp only [List.map_append, List.map_cons, List.map_nil, List.count_append, List.count_cons,
    List.count_nil] at hcount
  simp only [links, List.count_append, List.count_cons, List.cons_append]
  omega

end Session.Agree

namespace ScopeRequest

open StepM

variable [History] {s t : Session} {extra more : List Link} {v : Value} {id : NodeId} {name : String}

omit [History] in
theorem sees_scope (hid : .scope id ∈ s.links) : s.heap.Sees (extra ++ s.links) (.scope id) :=
  .held (List.mem_append_right _ hid)

theorem runLetGoScope (ha : Session.Agree (.scope id :: extra) s t) :
    Alike (StepM.onHeap (HeapM.letGo (.object id))) (StepM.onHeap (HeapM.letGo (.object id))) s t
      more fun _ s' t' => Session.Agree extra s' t' ∧ s'.links = s.links := by
  have hheld : Session.Agree ([.scope id] ++ extra) s t := ha
  refine Alike.onHeap_from (fun _ => []) hheld (Together.of_modify ?_)
  have hheap : Heap.Agree ([.scope id] ++ (extra ++ s.links)) s.heap t.heap := ha.heap
  exact hheap.letGo rfl rfl

theorem runDescribed (ha : Session.Agree extra s t) (hid : .scope id ∈ s.links) :
    PerformsAlike (described id) (described id) s t extra := by
  refine Alike.heap_bind ?_
  rw [ha.heap.scope?_eq (sees_scope hid)]
  exact (Alike.required ha).bind fun scope s₁ t₁ ⟨ha, _⟩ => runFact "debug" ha rfl

/-- A new scope gets its name, and the one that had it before is let go. -/
theorem runNamed {m : NodeId → StepM Outcome} {outer : Option NodeId}
    (ha : Session.Agree extra s t) (houter : ∀ id, outer = some id → .scope id ∈ s.links)
    (hm : ∀ id s' t', Session.Agree extra s' t' → .scope id ∈ s'.links →
      PerformsAlike (m id) (m id) s' t' extra) :
    PerformsAlike
      (do
        let id ← StepM.onHeap (HeapM.newScope outer)
        let s ← getThe Session
        set { s with scopes := s.scopes.insert name id }
        (s.scopes.get? name).forM fun old => StepM.onHeap (HeapM.letGo (.object old))
        m id)
      (do
        let id ← StepM.onHeap (HeapM.newScope outer)
        let s ← getThe Session
        set { s with scopes := s.scopes.insert name id }
        (s.scopes.get? name).forM fun old => StepM.onHeap (HeapM.letGo (.object old))
        m id) s t extra := by
  have hnew := (ha.heap.runNewScope fun id hid => sees_scope (houter id hid)).mono
    fun _ _ _ hq => hq.1
  refine (Alike.onHeap_add (fun id => [.scope id]) ha hnew).bind fun id s₁ t₁ ⟨ha, _⟩ => ?_
  have hnamed := ha.insertScope name
  have hid : .scope id ∈ ({ s₁ with scopes := s₁.scopes.insert name id } : Session).links :=
    Session.Agree.held_scope (Fields.get?_eq_some_iff.mpr
      (Fields.mem_entries_insert.mpr (Or.inl ⟨rfl, rfl⟩)))
  refine Alike.get_bind (Alike.set_bind ?_)
  rw [ha.scopes_eq]
  cases hold : s₁.scopes.get? name with
  | none =>
    rw [hold] at hnamed
    exact Alike.skip_bind (hm id _ _ hnamed hid)
  | some old =>
    rw [hold] at hnamed
    refine (runLetGoScope hnamed).bind fun _ s₂ t₂ ⟨ha, hl⟩ => ?_
    exact hm id s₂ t₂ ha (hl ▸ hid)

theorem performsAlike_create (name : String) (around : Option String)
    (ha : Session.Agree extra s t) :
    PerformsAlike (create name around).perform (create name around).perform s t extra := by
  unfold perform
  cases around with
  | none =>
    exact runNamed ha (fun id he => by cases he) fun id s₁ t₁ ha hid => runDescribed ha hid
  | some around =>
    dsimp only
    rw [bind_map_left]
    refine (runScope around ha).bind fun outer s₁ t₁ ⟨ha, _, houter⟩ => ?_
    refine runNamed ha (fun id he => ?_) fun id s₂ t₂ ha hid => runDescribed ha hid
    exact Option.some.inj he ▸ houter

omit [History] in
theorem perform_define (scope : String) (l : Literal) (name : String) (isMutable : Bool) :
    (define scope l name isMutable).perform = makeDefinition scope l >>= fun a =>
      StepM.onHeap (HeapM.define a.1 name a.2 isMutable) >>= fun _ => described a.1 := by
  simp only [makeDefinition, bind_assoc, pure_bind]
  rfl

theorem runMakeDefinition (scope : String) (l : Literal) (ha : Session.Agree extra s t) :
    Alike (makeDefinition scope l) (makeDefinition scope l) s t extra fun a s' t' =>
      Session.Agree extra s' t' ∧ .scope a.1 ∈ s'.links ∧ a.2.links ⊆ s'.links := by
  refine (runScope scope ha).bind fun id s₁ t₁ ⟨ha, _, hid⟩ => ?_
  refine (runTake l ha).bind fun v s₂ t₂ ⟨ha, hs, hv⟩ => ?_
  exact Alike.pure ⟨ha, hs hid, hv⟩

/-- A variable is defined, if there is a scope to define it in. -/
theorem performsAlike_define (scope : String) (l : Literal) (name : String) (isMutable : Bool)
    (ha : Session.Agree extra s t)
    (hdefine : ∀ {id other h k},
      s.definition? (.scope (define scope l name isMutable)) = some (id, other) →
        Heap.Define id other h k → History.Admits h → History.Admits k) :
    PerformsAlike (define scope l name isMutable).perform (define scope l name isMutable).perform
      s t extra := by
  rw [perform_define]
  refine (runMakeDefinition scope l ha).bind_across (fun a s₁ t₁ hrun hq => ?_) fun _ _ _ _ => id
  obtain ⟨ha, hid, hv⟩ := hq
  have hmade := Session.definition?_of_ok name isMutable hrun
  have hdefined : Together (HeapM.define a.1 name a.2 isMutable) (HeapM.define a.1 name a.2 isMutable)
      s₁.heap t₁.heap fun _ h k => Heap.Agree (extra ++ s₁.links) h k := by
    refine (ha.heap.toMatches.runDefine (sees_scope hid) (sees_taken hv) name isMutable).mono
      fun _ h k hk => ?_
    obtain ⟨hmatch, hleft, hright⟩ := hk
    exact ⟨hmatch, hdefine hmade hleft ha.heap.leftAdmits, hdefine hmade hright ha.heap.rightAdmits⟩
  refine (runQuietly ha hdefined).bind fun _ s₂ t₂ hq => ?_
  obtain ⟨ha, hl⟩ := hq
  exact runDescribed ha (hl ▸ hid)

/-- **Steps about scopes** perform the same on both sides. -/
theorem performsAlike (r : ScopeRequest) (ha : Session.Agree extra s t)
    (hs : s.Allows (.scope r)) : PerformsAlike r.perform r.perform s t extra := by
  cases r with
  | create name around => exact performsAlike_create name around ha
  | dropScope name =>
    unfold perform
    refine Alike.get_bind ?_
    rw [ha.scopes_eq]
    cases hid : s.scopes.get? name with
    | none => exact runFact "dropped" ha rfl
    | some id =>
      refine Alike.set_bind ?_
      exact (runLetGoScope (ha.eraseScope hid)).bind fun _ s₁ t₁ hq => runFact "dropped" hq.1 rfl
  | define scope l name isMutable => exact performsAlike_define scope l name isMutable ha hs.define
  | read scope name =>
    refine (runScope scope ha).bind fun id s₁ t₁ hq => Alike.heap_bind (runFacts hq.1 ?_)
    obtain ⟨ha, _, hid⟩ := hq
    have hs : s₁.heap.Sees (extra ++ s₁.links) (.scope id) := sees_scope hid
    rw [ha.heap.readVariable_eq hs, ha.heap.ownBinding?_eq hs,
      ha.heap.snapshot?_eq fun v hv => ha.heap.sees_readVariable hs hv]
  | assign scope l name =>
    refine (runScope scope ha).bind fun id s₁ t₁ hq => ?_
    obtain ⟨ha, _, hid⟩ := hq
    refine (runTake l ha).bind fun v s₂ t₂ hq => ?_
    obtain ⟨ha, hs, hv⟩ := hq
    have hid : Link.scope id ∈ s₂.links := hs hid
    have hassign := ha.heap.runAssignVariable (sees_scope hid) (sees_taken hv) name
    refine (Alike.onHeap_add (resultLinks fun _ => []) ha (hassign.mono fun r h k hq =>
      ?_)).bind fun r s₃ t₃ hq => ?_
    · obtain ⟨ha, he⟩ := hq
      cases r with
      | ok _ => exact ha
      | error e =>
        show Heap.Agree (e.links ++ _) h k
        rwa [Error.links_of_none (he e rfl)]
    · obtain ⟨ha, hl⟩ := hq
      refine (Alike.orFail ha).bind fun _ s₄ t₄ hq => Alike.heap_bind ?_
      obtain ⟨ha, hs⟩ := hq
      have hsees : s₄.heap.Sees (extra ++ s₄.links) (.scope id) := sees_scope (hs ▸ hl ▸ hid)
      refine runFact "v" ha ?_
      show t₄.heap.snapshot? _ = s₄.heap.snapshot? _
      rw [ha.heap.readVariable_eq hsees,
        ha.heap.snapshot?_eq fun v hv => ha.heap.sees_readVariable hsees hv]
  | outer scope =>
    refine (runScope scope ha).bind fun id s₁ t₁ hq => Alike.get_bind ?_
    obtain ⟨ha, _, hid⟩ := hq
    have hs : s₁.heap.Sees (extra ++ s₁.links) (.scope id) := sees_scope hid
    refine runFact "outer" ha ?_
    rw [ha.heap.outerScope?_eq hs, ha.scopes_eq]

end ScopeRequest

end ScriptCore
