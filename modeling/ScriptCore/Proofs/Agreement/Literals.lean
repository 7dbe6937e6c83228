import ScriptCore.Proofs.Agreement.Steps

/-!
# Literals on sessions that agree

Making a literal leaves its value held, and nothing else if it fails (`runMake`). A value that is
taken is held by the session until the step ends, so whatever was taken before is still held when
the next literal has been made.
-/

namespace ScriptCore

namespace Heap.Agree

variable [History] {links : List Link}

/-! ## Nesting -/

theorem runNestInArrays (depth : Nat) : ∀ {v : Value} {h k : Heap}, Agree (v.links ++ links) h k →
    Together (StepM.nestInArrays depth v) (StepM.nestInArrays depth v) h k fun w h' k' =>
      Agree (w.links ++ links) h' k' := by
  induction depth with
  | zero => exact fun ha => Together.pure ha
  | succ depth ih =>
    intro v h k ha
    have hone : valueLinks [v] = v.links := valueLinks_singleton v
    have helements : valueLinks (#[v] : Array Value).toList ⊆ v.links ++ links := by
      show valueLinks [v] ⊆ v.links ++ links
      rw [hone]
      exact List.subset_append_left ..
    refine (ha.runNewArray helements).bind fun id h₁ k₁ ⟨ha, o, ho, he⟩ => ?_
    have hswap : Agree (valueLinks [v] ++ (.object id :: links)) h₁ k₁ := by
      rw [hone]
      exact ha.perm List.perm_middle.symm
    have hkept : ∀ l ∈ valueLinks [v], Kept h₁ (.object id :: links) l := fun l hl =>
      kept_of_object? ho.object (mem_links_of_element he hl)
    exact (runHandOver hswap hkept).bind fun _ h₂ k₂ hq => ih (v := .object id) hq.1

theorem runNestInObjects (key : String) (depth : Nat) : ∀ {v : Value} {h k : Heap},
    Agree (v.links ++ links) h k →
      Together (StepM.nestInObjects key depth v) (StepM.nestInObjects key depth v) h k
        fun w h' k' => Agree (w.links ++ links) h' k' := by
  induction depth with
  | zero => exact fun ha => Together.pure ha
  | succ depth ih =>
    intro v h k ha
    refine ha.runNewObject.bind fun id h₁ k₁ ⟨ha, _⟩ => ?_
    have hv : h₁.SeesValue (.object id :: (v.links ++ links)) v :=
      .held fun l hl => List.mem_cons_of_mem _ (List.mem_append_left _ hl)
    refine (ha.runAssignField (.held (List.mem_cons_self ..)) hv key).bind fun _ h₂ k₂ ha => ?_
    have hswap : Agree (v.links ++ (.object id :: links)) h₂ k₂ := ha.perm List.perm_middle.symm
    exact hswap.runLetGo.bind fun _ h₃ k₃ ha => ih (v := .object id) ha

theorem runIntrinsic {h k : Heap} (ha : Agree links h k) (which : Intrinsic) :
    Together (StepM.intrinsic which) (StepM.intrinsic which) h k fun id h' k' =>
      Agree links h' k' ∧ h'.Sees links (.object id) := by
  refine ha.runRealm.bind fun r h₁ k₁ ⟨ha, hr, _⟩ => Together.pure ⟨ha, hr _ ?_⟩
  cases which <;> simp [Realm.references]

end Heap.Agree

namespace StepM

variable [History] {s t : Session} {extra more : List Link} {v : Value} {id : NodeId}

/-! ## Single operations -/

theorem runNewText (ha : Session.Agree extra s t) (text : String) :
    Alike (StepM.onHeap (HeapM.newText text)) (StepM.onHeap (HeapM.newText text)) s t more
      fun v s' t' => Session.Agree (v.links ++ extra) s' t' ∧ s'.links = s.links :=
  Alike.onHeap_add Value.links ha (ha.heap.runNewText text)

theorem runHandOver {vs : List Value} {o : Object}
    (ha : Session.Agree (.object id :: (valueLinks vs ++ extra)) s t)
    (ho : s.heap.object? id = some o) (hstored : valueLinks vs ⊆ o.links) :
    Alike (StepM.onHeap (HeapM.handOver vs)) (StepM.onHeap (HeapM.handOver vs)) s t more
      fun _ s' t' => Session.Agree (.object id :: extra) s' t' ∧ s'.links = s.links := by
  have hheap : Heap.Agree (valueLinks vs ++ (.object id :: (extra ++ s.links))) s.heap t.heap := by
    refine ha.heap.perm ?_
    rw [List.cons_append, List.append_assoc]
    exact List.perm_middle.symm
  have hkept : ∀ l ∈ valueLinks vs, Heap.Kept s.heap (.object id :: (extra ++ s.links)) l :=
    fun l hl => Heap.Agree.kept_of_object? ho (hstored hl)
  refine (Alike.onHeap (fun _ => .object id :: extra) (fun _ _ => True) ha
    (hheap.runHandOver hkept |>.mono fun _ _ _ hq => ⟨hq.1, trivial⟩)).mono ?_
  exact fun _ s' t' ⟨ha, hl, _⟩ => ⟨ha, hl⟩

theorem runNewArray {vs : List Value} (ha : Session.Agree (valueLinks vs ++ extra) s t) :
    Alike (StepM.onHeap (HeapM.newArray vs.toArray)) (StepM.onHeap (HeapM.newArray vs.toArray))
      s t more fun id s' t' => Session.Agree (.object id :: (valueLinks vs ++ extra)) s' t' ∧
        s'.links = s.links ∧ ∃ o, s'.heap.object? id = some o ∧ valueLinks vs ⊆ o.links := by
  have hvs : valueLinks vs.toArray.toList ⊆ (valueLinks vs ++ extra) ++ s.links := fun l hl =>
    List.mem_append_left _ (List.mem_append_left _ hl)
  refine Alike.onHeap (fun id => .object id :: (valueLinks vs ++ extra))
    (fun id h => ∃ o, h.object? id = some o ∧ valueLinks vs ⊆ o.links) ha ?_
  refine (ha.heap.runNewArray hvs).mono fun id h k ⟨ha, o, ho, he⟩ => ?_
  refine ⟨ha, o, ho.object, fun l hl => ?_⟩
  exact Heap.Agree.mem_links_of_element he hl

/-! ## Literals -/

mutual

/-- **A literal makes the same value on both sides**, which is held. -/
theorem runMake (l : Literal) : ∀ ⦃extra : List Link⦄ ⦃s t : Session⦄, Session.Agree extra s t →
    Alike (make l) (make l) s t extra fun v s' t' =>
      Session.Agree (v.links ++ extra) s' t' ∧ s'.links = s.links := by
  intro extra s t ha
  cases l with
  | undefined | null | boolean | integer | double =>
    unfold make
    exact Alike.pure ⟨ha, rfl⟩
  | text text =>
    unfold make
    exact runNewText ha text
  | repeated text times =>
    unfold make
    exact runNewText ha _
  | array items =>
    unfold make
    refine (runMakeAll items ha).bind fun vs s₁ t₁ ⟨ha, hl₁⟩ => ?_
    refine (runNewArray ha).bind fun id s₂ t₂ ⟨ha, hl₂, o, ho, hstored⟩ => ?_
    refine (runHandOver ha ho hstored).bind fun _ s₃ t₃ ⟨ha, hl₃⟩ => ?_
    exact Alike.pure ⟨ha, hl₃.trans (hl₂.trans hl₁)⟩
  | object entries =>
    unfold make
    refine (Alike.onHeap_add (fun id => [.object id]) ha
      (ha.heap.runNewObject.mono fun _ _ _ hr => hr.1)).bind fun id s₁ t₁ ⟨ha, hl₁⟩ => ?_
    refine (Alike.orLetGo (runMakeFields id entries ha (List.mem_cons_self ..))).bind
      fun _ s₂ t₂ ⟨ha, hl₂⟩ => ?_
    exact Alike.pure ⟨ha, hl₂.trans hl₁⟩
  | register name =>
    unfold make
    refine Alike.get_bind ?_
    rw [ha.registers_eq]
    refine (Alike.required ha).bind fun v s₁ t₁ ⟨ha₁, hs, hv⟩ => ?_
    obtain rfl := hs
    have hsees : s₁.heap.SeesValue (extra ++ s₁.links) v :=
      .held fun l hl => List.mem_append_right _ (Session.Agree.held_register hv hl)
    exact (Alike.hold ha₁ hsees).bind fun _ s₂ t₂ ⟨ha, hl⟩ => Alike.pure ⟨ha, hl⟩
  | intrinsic which =>
    unfold make
    refine (Alike.onHeap (fun _ => extra) (fun id h => h.Sees (extra ++ s.links) (.object id)) ha
      (ha.heap.runIntrinsic which)).bind fun id s₁ t₁ ⟨ha, hl₁, hs⟩ => ?_
    rw [← hl₁] at hs
    refine (Alike.hold ha hs.value).bind fun _ s₂ t₂ ⟨ha, hl₂⟩ => ?_
    exact Alike.pure ⟨ha, hl₂.trans hl₁⟩
  | nestedArray depth inner =>
    unfold make
    refine (runMake inner ha).bind fun v s₁ t₁ ⟨ha, hl₁⟩ => ?_
    have hheap := ha.heap
    rw [List.append_assoc] at hheap
    refine (Alike.onHeap_from Value.links ha (hheap.runNestInArrays depth)).mono ?_
    exact fun w s₂ t₂ ⟨ha, hl₂⟩ => ⟨ha, hl₂.trans hl₁⟩
  | nestedObject depth key inner =>
    unfold make
    refine (runMake inner ha).bind fun v s₁ t₁ ⟨ha, hl₁⟩ => ?_
    have hheap := ha.heap
    rw [List.append_assoc] at hheap
    refine (Alike.onHeap_from Value.links ha (hheap.runNestInObjects key depth)).mono ?_
    exact fun w s₂ t₂ ⟨ha, hl₂⟩ => ⟨ha, hl₂.trans hl₁⟩

theorem runMakeAll (ls : List Literal) : ∀ ⦃extra : List Link⦄ ⦃s t : Session⦄,
    Session.Agree extra s t → Alike (makeAll ls) (makeAll ls) s t extra fun vs s' t' =>
      Session.Agree (valueLinks vs ++ extra) s' t' ∧ s'.links = s.links := by
  intro extra s t ha
  cases ls with
  | nil =>
    unfold makeAll
    exact Alike.pure ⟨ha, rfl⟩
  | cons l ls =>
    unfold makeAll
    refine (runMake l ha).bind fun v s₁ t₁ ⟨ha, hl₁⟩ => ?_
    have hrest : Alike (makeAll ls) (makeAll ls) s₁ t₁ (valueLinks [v] ++ extra) fun vs s' t' =>
        Session.Agree (valueLinks vs ++ (v.links ++ extra)) s' t' ∧ s'.links = s₁.links := by
      rw [valueLinks_singleton]
      exact runMakeAll ls ha
    refine hrest.orLetGo.bind fun vs s₂ t₂ ⟨ha, hl₂⟩ => ?_
    refine Alike.pure ⟨ha.perm ?_, hl₂.trans hl₁⟩
    rw [valueLinks_cons, List.append_assoc]
    exact List.perm_append_comm_assoc ..

theorem runMakeFields (id : NodeId) (entries : List (String × Literal)) :
    ∀ ⦃extra : List Link⦄ ⦃s t : Session⦄, Session.Agree extra s t → .object id ∈ extra →
      Alike (makeFields id entries) (makeFields id entries) s t extra fun _ s' t' =>
        Session.Agree extra s' t' ∧ s'.links = s.links := by
  intro extra s t ha hid
  cases entries with
  | nil =>
    unfold makeFields
    exact Alike.pure ⟨ha, rfl⟩
  | cons entry rest =>
    obtain ⟨key, l⟩ := entry
    unfold makeFields
    refine (runMake l ha).bind fun v s₁ t₁ ⟨ha, hl₁⟩ => ?_
    have hobject : Link.object id ∈ (v.links ++ extra) ++ s₁.links :=
      List.mem_append_left _ (List.mem_append_right _ hid)
    have hv : s₁.heap.SeesValue ((v.links ++ extra) ++ s₁.links) v :=
      .held fun l hl => List.mem_append_left _ (List.mem_append_left _ hl)
    refine (Alike.onHeap_add (fun _ => []) ha
      (ha.heap.runAssignField (.held hobject) hv key)).bind fun _ s₂ t₂ ⟨ha, hl₂⟩ => ?_
    refine (Alike.letGo ha).bind fun _ s₃ t₃ ⟨ha, hl₃⟩ => ?_
    refine (runMakeFields id rest ha hid).mono fun _ s₄ t₄ ⟨ha, hl₄⟩ => ⟨ha, ?_⟩
    rw [hl₄, hl₃, hl₂, hl₁]

end

/-! ## What is held until the step ends -/

theorem runTake (l : Literal) (ha : Session.Agree extra s t) :
    Alike (take l) (take l) s t extra fun v s' t' =>
      Session.Agree extra s' t' ∧ s.links ⊆ s'.links ∧ v.links ⊆ s'.links := by
  refine (runMake l ha).bind fun v s₁ t₁ ⟨ha, hl₁⟩ => ?_
  refine (Alike.keep ha).bind fun _ s₂ t₂ ⟨ha, hl₂⟩ => Alike.pure ⟨ha, ?_, ?_⟩
  · rw [hl₂, hl₁]
    exact List.subset_append_left ..
  · rw [hl₂]
    exact List.subset_append_right ..

theorem runTakeAll (ls : List Literal) : ∀ {s t : Session}, Session.Agree extra s t →
    Alike (takeAll ls) (takeAll ls) s t extra fun vs s' t' =>
      Session.Agree extra s' t' ∧ s.links ⊆ s'.links ∧ valueLinks vs ⊆ s'.links := by
  induction ls with
  | nil => exact fun ha => Alike.pure ⟨ha, List.Subset.refl _, List.nil_subset _⟩
  | cons l ls ih =>
    intro s t ha
    refine (runTake l ha).bind fun v s₁ t₁ ⟨ha, hs₁, hv⟩ => ?_
    refine (ih ha).bind fun vs s₂ t₂ ⟨ha, hs₂, hvs⟩ => Alike.pure ⟨ha, ?_, ?_⟩
    · exact List.Subset.trans hs₁ hs₂
    · rw [valueLinks_cons]
      exact List.append_subset.mpr ⟨List.Subset.trans hv hs₂, hvs⟩

theorem runTakeObject (l : Literal) (ha : Session.Agree extra s t) :
    Alike (takeObject l) (takeObject l) s t extra fun id s' t' =>
      Session.Agree extra s' t' ∧ s.links ⊆ s'.links ∧ .object id ∈ s'.links := by
  refine (runTake l ha).bind fun v s₁ t₁ ⟨ha, hs, hv⟩ => ?_
  cases v with
  | object id => exact Alike.pure ⟨ha, hs, hv (List.mem_singleton.mpr rfl)⟩
  | _ => exact Alike.fail ha

theorem runTakeObject? (l : Option Literal) (ha : Session.Agree extra s t) :
    Alike (takeObject? l) (takeObject? l) s t extra fun p s' t' =>
      Session.Agree extra s' t' ∧ s.links ⊆ s'.links ∧
        ∀ id, p = some id → .object id ∈ s'.links := by
  cases l with
  | none => exact Alike.pure ⟨ha, List.Subset.refl _, fun id he => by cases he⟩
  | some l =>
    refine (runTakeObject l ha).bind fun id s₁ t₁ ⟨ha, hs, hid⟩ => ?_
    exact Alike.pure ⟨ha, hs, fun x hx => Option.some.inj hx ▸ hid⟩

theorem runScope (name : String) (ha : Session.Agree extra s t) :
    Alike (scope name) (scope name) s t extra fun id s' t' =>
      Session.Agree extra s' t' ∧ s'.links = s.links ∧ .scope id ∈ s'.links := by
  unfold scope
  refine Alike.get_bind ?_
  rw [ha.scopes_eq]
  refine (Alike.required ha).mono fun id s' t' ⟨ha', hs, hid⟩ => ⟨ha', ?_, ?_⟩
  · rw [hs]
  · rw [hs]
    exact Session.Agree.held_scope hid

end StepM

end ScriptCore
