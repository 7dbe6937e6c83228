import ScriptCore.Proofs.Agreement.Histories
import ScriptCore.Proofs.Agreement.Showing
import ScriptCore.Proofs.Heap.Growth

/-!
# Running on states that agree

`Together m n s t Q`: the action `m` on the state `s` and the action `n` on the state `t` answer the
same, and `Q` holds of the answer and the two states afterwards. There is a rule for each way of
putting actions together; with it come the actions on heaps from which all others are made.
-/

namespace ScriptCore

theorem run_bind_of_run {σ α β : Type} {m : StateM σ α} {f : α → StateM σ β} {s s' : σ} {a : α}
    (hm : m.run s = (a, s')) : (m >>= f).run s = (f a).run s' := by
  rw [StateT.run_bind, hm]
  rfl

theorem run_get_bind {σ β : Type} (f : σ → StateM σ β) (s : σ) :
    (get >>= f).run s = (f s).run s := rfl

/-- Two actions answer the same, and `Q` holds of the answer and of the states afterwards. -/
def Together {σ α : Type} (m n : StateM σ α) (s t : σ) (Q : α → σ → σ → Prop) : Prop :=
  (n.run t).1 = (m.run s).1 ∧ Q (m.run s).1 (m.run s).2 (n.run t).2

namespace Together

variable {σ α β : Type} {m n : StateM σ α} {f g : α → StateM σ β} {s t s' t' : σ}
  {Q R : α → σ → σ → Prop} {P : β → σ → σ → Prop}

theorem mono (hm : Together m n s t R) (hq : ∀ a s' t', R a s' t' → Q a s' t') :
    Together m n s t Q := ⟨hm.1, hq _ _ _ hm.2⟩

theorem known (hm : Together m n s t Q) :
    Together m n s t fun a s' t' => m.run s = (a, s') ∧ Q a s' t' := ⟨hm.1, rfl, hm.2⟩

theorem pure {a : α} (hq : Q a s t) : Together (Pure.pure a) (Pure.pure a) s t Q := ⟨rfl, hq⟩

theorem bind (hm : Together m n s t R)
    (hf : ∀ a s' t', R a s' t' → Together (f a) (g a) s' t' P) :
    Together (m >>= f) (n >>= g) s t P := by
  obtain ⟨he, hr⟩ := hm
  have hfg := hf _ _ _ hr
  refine ⟨?_, ?_⟩
  · show ((g (n.run t).1).run (n.run t).2).1 = ((f (m.run s).1).run (m.run s).2).1
    rw [he]
    exact hfg.1
  · show P ((f (m.run s).1).run (m.run s).2).1 ((f (m.run s).1).run (m.run s).2).2
      ((g (n.run t).1).run (n.run t).2).2
    rw [he]
    exact hfg.2

theorem discard {P : PUnit → σ → σ → Prop} (hm : Together m n s t fun _ s' t' => P ⟨⟩ s' t') :
    Together (Functor.discard m) (Functor.discard n) s t P := ⟨rfl, hm.2⟩

theorem get_bind {f g : σ → StateM σ β} (hf : Together (f s) (g t) s t P) :
    Together (get >>= f) (get >>= g) s t P := hf

theorem set {P : PUnit → σ → σ → Prop} (hq : P ⟨⟩ s' t') :
    Together (MonadStateOf.set s') (MonadStateOf.set t') s t P := ⟨rfl, hq⟩

theorem of_modify {P : PUnit → σ → σ → Prop} {u w : σ → σ} (hq : P ⟨⟩ (u s) (w t)) :
    Together (modify u) (modify w) s t P := ⟨rfl, hq⟩

theorem set_bind {f g : PUnit → StateM σ β} (hf : Together (f ⟨⟩) (g ⟨⟩) s' t' P) :
    Together (MonadStateOf.set s' >>= f) (MonadStateOf.set t' >>= g) s t P := hf

theorem modify_bind {f g : PUnit → StateM σ β} {u w : σ → σ}
    (hf : Together (f ⟨⟩) (g ⟨⟩) (u s) (w t) P) :
    Together (modify u >>= f) (modify w >>= g) s t P := hf

theorem look_bind {γ : Type} {u : σ → γ} {f g : γ → StateM σ β} (he : u t = u s)
    (hf : Together (f (u s)) (g (u s)) s t P) :
    Together ((do return u (← get)) >>= f) ((do return u (← get)) >>= g) s t P := by
  have hg : Together (f (u s)) (g (u t)) s t P := he ▸ hf
  exact hg

end Together

namespace Heap.Agree

variable [History] {h k : Heap} {links more : List Link} {v : Value} {id : NodeId}
  (ha : Agree links h k)

/-! ## Holding and letting go -/

include ha in
theorem runHold (hv : h.SeesValue links v) :
    Together (HeapM.hold v) (HeapM.hold v) h k fun _ h' k' => Agree (v.links ++ links) h' k' := by
  refine Together.of_modify ?_
  rw [← v.map_target_links]
  exact ha.hold hv

theorem runLetGo (ha : Agree (v.links ++ links) h k) :
    Together (HeapM.letGo v) (HeapM.letGo v) h k fun _ h' k' => Agree links h' k' := by
  refine Together.of_modify (ha.letGo ?_ (Pending.payloads_ofValue v))
  rw [Pending.references_ofValue, v.map_target_links]

theorem runHandOver {vs : List Value} (ha : Agree (valueLinks vs ++ links) h k)
    (hm : ∀ l ∈ valueLinks vs, Kept h links l) :
    Together (HeapM.handOver vs) (HeapM.handOver vs) h k fun _ h' k' =>
      Agree links h' k' ∧ Grows h h' := by
  refine Together.of_modify ⟨?_, .of_shrinks (shrinks_removeHandles h _)⟩
  rw [← map_target_flatMap_links]
  exact ha.handOver hm

include ha in
theorem runHoldCallable {f : Callable} (hf : ∀ l ∈ f.links, h.Sees links l) :
    Together (HeapM.holdCallable f) (HeapM.holdCallable f) h k fun _ h' k' =>
      Agree (f.links ++ links) h' k' ∧ ∀ x, h'.node? x = h.node? x := by
  refine Together.of_modify ⟨?_, fun x => node?_addHandles _ x h⟩
  rw [← f.map_target_links]
  exact ha.hold hf

theorem runLetGoCallable {f : Callable} (ha : Agree (f.links ++ links) h k) :
    Together (HeapM.letGoCallable f) (HeapM.letGoCallable f) h k fun _ h' k' =>
      Agree links h' k' := by
  refine Together.of_modify (ha.letGo ?_ (Pending.payloads_map_reference _))
  rw [Pending.references_map_reference, f.map_target_links]

/-! ## New nodes -/

include ha

theorem node?_alloc (node : Node) (hl : ∀ l ∈ node.links, h.Sees links l) :
    (h.alloc node).2.node? h.cells.size = some node := by
  obtain ⟨hr, hk⟩ := ha.left.alloc fun l hm => ha.has_of_sees (hl l hm)
  rw [hk.node?_eq (hr.isLive (List.mem_cons_self ..)), node?_enter_push, if_pos rfl]

theorem realm_alloc (node : Node) (hl : ∀ l ∈ node.links, h.Sees links l) :
    (h.alloc node).2.realm = h.realm := by
  obtain ⟨_, hk⟩ := ha.left.alloc fun l hm => ha.has_of_sees (hl l hm)
  exact hk.realm.trans (sameFrame_enter _ _).realm

theorem runAllocObject {o : Object} (hl : ∀ l ∈ o.links, h.Sees links l)
    (hp : o.payload = none) :
    Together (HeapM.allocObject o) (HeapM.allocObject o) h k fun id h' k' =>
      Agree (.object id :: links) h' k' ∧ Made h h' id o ∧ h'.realm = h.realm :=
  ⟨ha.size, ha.alloc (.object o) hl hp,
    ⟨.alloc ha.left fun l hm => ha.has_of_sees (hl l hm), le_rfl,
      object?_eq_some_iff.mpr (ha.node?_alloc (.object o) hl)⟩,
    ha.realm_alloc (.object o) hl⟩

theorem runAllocScope {s : Scope} (hl : ∀ l ∈ s.links, h.Sees links l) :
    Together (HeapM.allocScope s) (HeapM.allocScope s) h k fun id h' k' =>
      Agree (.scope id :: links) h' k' ∧ h'.scope? id = some s :=
  ⟨ha.size, ha.alloc (.scope s) hl rfl, scope?_eq_some_iff.mpr (ha.node?_alloc (.scope s) hl)⟩

/-! ## The prototypes -/

omit [History] ha in
theorem links_plain (className : String) (p : Option NodeId) :
    (Object.plain className p).links = p.toList.map .object := by
  simp [Object.links, Object.plain, Fields.empty, Fields.values, Exotic.links]

omit [History] ha in
theorem sees_links_plain {className : String} {p : Option NodeId}
    (hp : ∀ id, p = some id → h.Sees links (.object id)) :
    ∀ l ∈ (Object.plain className p).links, h.Sees links l := by
  intro l hl
  rw [links_plain, List.mem_map] at hl
  obtain ⟨id, hid, rfl⟩ := hl
  exact hp id (Option.mem_toList.mp hid)

theorem runNewWithPrototype (className : String) {p : Option NodeId}
    (hp : ∀ id, p = some id → h.Sees links (.object id)) :
    Together (HeapM.newWithPrototype className p) (HeapM.newWithPrototype className p) h k
      fun id h' k' => Agree (.object id :: links) h' k' ∧ Made h h' id (.plain className p) :=
  (ha.runAllocObject (sees_links_plain hp) rfl).mono fun _ _ _ hq => ⟨hq.1, hq.2.1⟩

/-- The prototypes are made on both sides, or on neither. -/
theorem runRealm : Together HeapM.realm HeapM.realm h k fun r h' k' =>
    Agree links h' k' ∧ (∀ id ∈ r.references, h'.Sees links (.object id)) ∧ Grows h h' := by
  refine Together.get_bind ?_
  rw [ha.realm]
  cases hr : h.realm with
  | some r =>
    refine Together.pure ⟨ha, fun id hm => .permanent ?_, .refl h⟩
    simpa [Heap.permanent, hr] using hm
  | none =>
    have hroot {h' : Heap} {links' : List Link} {className : String} {root : NodeId}
        (hm : .object root ∈ links') :
        ∀ l ∈ (Object.plain className (some root)).links, h'.Sees links' l :=
      sees_links_plain fun id hid => Option.some.inj hid ▸ .held hm
    dsimp only
    refine (ha.runAllocObject (sees_links_plain (by simp)) rfl).bind fun root h₁ k₁ hq => ?_
    obtain ⟨ha, hm₁, h₁r⟩ := hq
    refine (ha.runAllocObject (hroot (by simp)) rfl).bind fun array h₂ k₂ hq => ?_
    obtain ⟨ha, hm₂, h₂r⟩ := hq
    refine (ha.runAllocObject (hroot (by simp)) rfl).bind fun string h₃ k₃ hq => ?_
    obtain ⟨ha, hm₃, h₃r⟩ := hq
    refine (ha.runAllocObject (hroot (by simp)) rfl).bind fun function h₄ k₄ hq => ?_
    obtain ⟨ha, hm₄, h₄r⟩ := hq
    have hnone : h₄.realm = none := by rw [h₄r, h₃r, h₂r, h₁r, hr]
    have hgrows : Grows h h₄ := ((hm₁.grows.trans hm₂.grows).trans hm₃.grows).trans hm₄.grows
    refine Together.modify_bind (Together.pure ⟨?_, fun id hm => .permanent ?_,
      hgrows.size_le, hgrows.displayDepth, hgrows.nodes⟩)
    · refine Agree.install (ha.perm ?_) hnone
      exact ((List.reverse_perm [Link.object root, .object array, .object string,
        .object function]).append_right links)
    · simpa [Heap.permanent] using hm

end Heap.Agree

end ScriptCore
