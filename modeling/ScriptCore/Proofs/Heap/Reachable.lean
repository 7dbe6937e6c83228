import ScriptCore.Proofs.Heap.Soundness

/-!
# Reachable heaps

`Reachable h held`: the machine can come to the heap `h` with the references in `held` held from
outside, in any order of small moves. A move registers a node, writes to one, takes a handle or lets
something go, borrows nodes, installs prototypes or settings, or collects garbage. Where things stand
in memory is left open. What is pending between two moves counts as held. Every operation on the heap
is made up of such moves; those on which the others rest are here.

All reachable heaps are sound (`Reachable.sound`).
-/

namespace ScriptCore

namespace Heap

inductive Reachable : Heap → List NodeId → Prop
  | initial : Reachable .initial []
  | perm {h : Heap} {held held' : List NodeId} (hr : Reachable h held) (hp : held.Perm held') :
      Reachable h held'
  /-- A handle is taken on a live node. -/
  | hold {h : Heap} {held : List NodeId} {id : NodeId} (hr : Reachable h held)
      (hl : h.isLive id = true) : Reachable (h.addHandle id) (id :: held)
  /-- One item is let go. What it lets go of in its turn is pending. -/
  | release {h : Heap} {held : List NodeId} {item : Pending}
      (hr : Reachable h (item.references ++ held)) :
      Reachable (h.letGoOne collect item).2
        ((h.letGoOne collect item).1.flatMap Pending.references ++ held)
  | collect {h : Heap} {held : List NodeId} (hr : Reachable h held) : Reachable h.collect.1 held
  /-- A node is put on the heap and entered in the books. -/
  | enter {h : Heap} {held : List NodeId} {node : Node} (hr : Reachable h held)
      (hl : ∀ l ∈ node.links, h.Has l) :
      Reachable ((h.push node).enter h.cells.size) (h.cells.size :: held)
  /-- A node is replaced by one of its kind. What it lets go of is held, and its prototype closes no
  cycle. -/
  | write {h : Heap} {held : List NodeId} {id : NodeId} {old node : Node}
      (hr : Reachable h held) (hn : h.node? id = some old) (hkind : node.linkTo id = old.linkTo id)
      (hl : ∀ l ∈ node.links, h.Has l)
      (hlost : ∀ x ∈ old.references, x ∈ node.references ∨ x ∈ h.permanent ++ held)
      (hproto : ∀ p, node.prototype? = some p →
        old.prototype? = some p ∨ ¬ Relation.ReflTransGen h.Inherits p id) :
      Reachable (h.setNode id node) held
  /-- Other nodes count as being changed. -/
  | borrow {h : Heap} {held : List NodeId} (hr : Reachable h held) (ids : List NodeId) :
      Reachable { h with borrowed := ids } held
  /-- The prototypes are there, and the heap holds them for good. -/
  | install {h : Heap} {held : List NodeId} {r : Realm}
      (hr : Reachable h (r.references ++ held)) (hnone : h.realm = none)
      (hl : ∀ id ∈ r.references, h.Has (.object id)) :
      Reachable { h with realm := some r } held
  | configure {h : Heap} {held : List NodeId} (hr : Reachable h held) (settings : Settings) :
      Reachable (h.configure settings) held
  /-- Things may stand anywhere. -/
  | place {h : Heap} {held : List NodeId} (hr : Reachable h held) (p : Places Nat) :
      Reachable (h.placedAt p) held

variable {h k : Heap} {id : NodeId} {held : List NodeId}

/-! ## Soundness -/

theorem Booked.letGoOne (onDemand : Heap → Heap × Nat) {item : Pending} (hb : h.Booked)
    (hs : Shrinks h (h.letGoOne onDemand item).2) (hd : (onDemand h).1.Booked) :
    (h.letGoOne onDemand item).2.Booked := by
  cases item with
  | reference id => exact hb.shrinks hs (collector_letGoOne_reference onDemand h id)
  | payload p =>
    cases p with
    | integer n => exact hb
    | text s => exact hb
    | value v => exact hb
    | watch name collects =>
      cases collects with
      | false => exact hb.shrinks hs rfl
      | true => exact hd.shrinks ((Shrinks.refl _).report _) rfl

namespace Sound

theorem collect (hs : h.Sound held) : h.collect.1.Sound held ∧ Shrinks h h.collect.1 := by
  obtain ⟨hc, hb, hk, _⟩ := collect_spec hs.counted hs.booked
  exact ⟨hs.shrinks hk (permanent_congr hk.realm ▸ hc) hb, hk⟩

theorem release {item : Pending} (hs : h.Sound (item.references ++ held)) :
    (h.letGoOne Heap.collect item).2.Sound
        ((h.letGoOne Heap.collect item).1.flatMap Pending.references ++ held) ∧
      Shrinks h (h.letGoOne Heap.collect item).2 := by
  have hcount := hs.counted.perm (List.perm_append_comm_assoc _ _ _)
  obtain ⟨hc, hk⟩ := hcount.letGoOne Heap.collect fun hc => by
    obtain ⟨hc, _, hk, _⟩ := collect_spec hc hs.booked
    exact ⟨hc, hk⟩
  have hb := hs.booked.letGoOne Heap.collect hk (collect_spec hs.counted hs.booked).2.1
  refine ⟨hs.shrinks hk ?_ hb, hk⟩
  rw [permanent_congr hk.realm]
  exact hc.perm (List.perm_append_comm_assoc _ _ _)

theorem hold (hs : h.Sound held) (hl : h.isLive id = true) : (h.addHandle id).Sound (id :: held) := by
  have hk : Shrinks h (h.addHandle id) := shrinks_addHandles h [id]
  refine hs.shrinks hk ?_ (hs.booked.shrinks hk (collector_addHandle h id))
  rw [permanent_congr hk.realm]
  exact (hs.counted.addHandle hl).perm List.perm_middle.symm

theorem congr (hs : h.Sound held) (hc : k.cells = h.cells) (hr : k.realm = h.realm)
    (hreg : k.collector.registry = h.collector.registry)
    (hi : k.collector.collecting = h.collector.collecting) : k.Sound held := by
  have hnode (x : NodeId) : k.node? x = h.node? x := by rw [node?, cell?, hc]; rfl
  have hhas {l : Link} (hl : h.Has l) : k.Has l := hl.congr (hnode _)
  refine ⟨?_, ⟨hreg ▸ hs.booked.nodup, fun hm => ?_, fun hl => ?_, hi ▸ hs.booked.idle⟩,
    fun hn l hm => hhas (hs.has_links (hnode _ ▸ hn) l hm), fun id hm => ?_, fun id hcycle => ?_⟩
  · rw [permanent_congr hr]
    exact hs.counted.congr hc
  · rw [hc]
    exact hs.booked.lt_size (hreg ▸ hm)
  · rw [hreg]
    exact hs.booked.complete (isLive_congr (hnode _) ▸ hl)
  · exact hhas (hs.has_permanent id (permanent_congr hr ▸ hm))
  · refine hs.acyclic id (Relation.TransGen.mono (fun a b hi => ?_) id id hcycle)
    obtain ⟨node, hn, hp⟩ := inherits_iff.mp hi
    exact inherits_iff.mpr ⟨node, hnode a ▸ hn, hp⟩

theorem install {r : Realm} (hs : h.Sound (r.references ++ held)) (hnone : h.realm = none)
    (hl : ∀ id ∈ r.references, h.Has (.object id)) :
    Sound { h with realm := some r } held := by
  have hperm : permanent { h with realm := some r } = r.references := by simp [permanent]
  have hc := hs.counted
  rw [permanent, hnone] at hc
  refine ⟨?_, ⟨hs.booked.nodup, hs.booked.lt_size, hs.booked.complete, hs.booked.idle⟩,
    hs.has_links, fun id hm => hl id (hperm ▸ hm), hs.acyclic⟩
  rw [hperm]
  exact hc.congr rfl

end Sound

/-- **Reachable heaps are sound.** -/
theorem Reachable.sound (hr : h.Reachable held) : h.Sound held := by
  induction hr with
  | initial => exact Sound.initial
  | @perm h held held' _ hp ih =>
    exact ⟨ih.counted.perm (hp.append_left _), ih.booked, ih.has_links, ih.has_permanent,
      ih.acyclic⟩
  | hold _ hl ih => exact ih.hold hl
  | release _ ih => exact ih.release.1
  | collect _ ih => exact ih.collect.1
  | enter _ hl ih => exact ih.push hl
  | write _ hn hkind hl hlost hproto ih => exact ih.setNode hn hkind hl hlost hproto
  | borrow _ ids ih => exact ih.congr rfl rfl rfl rfl
  | install _ hnone hl ih => exact ih.install hnone hl
  | configure _ settings ih => exact ih.congr rfl rfl rfl rfl
  | place _ p ih => exact ih.congr rfl rfl rfl rfl

/-! ## Longer moves -/

namespace Reachable

theorem isLive (hr : h.Reachable held) (hm : id ∈ held) : h.isLive id = true := hr.sound.isLive hm

theorem holdAll (ids : List NodeId) : ∀ {h : Heap} {held : List NodeId}, h.Reachable held →
    (∀ id ∈ ids, h.isLive id = true) → (h.addHandles ids).Reachable (ids ++ held) := by
  induction ids with
  | nil => exact fun hr _ => hr
  | cons id ids ih =>
    intro h held hr hl
    have hstep := hr.hold (hl id (List.mem_cons_self ..))
    refine (ih hstep fun x hx => ?_).perm List.perm_middle
    rw [isLive_congr (node?_addHandle h id x)]
    exact hl x (List.mem_cons_of_mem id hx)

/-- **What every item keeps, letting go keeps**: one item after the other is let go, each on a heap
that can be come to. -/
theorem letGo_induction {items : List Pending} {P : Heap → List Pending → Prop}
    (hr : h.Reachable (items.flatMap Pending.references ++ held))
    (hstep : ∀ {k item rest held'}, k.Reachable (item.references ++ held') → P k (item :: rest) →
      P (k.letGoOne Heap.collect item).2 ((k.letGoOne Heap.collect item).1 ++ rest))
    (hp : P h items) : (h.letGo items).Reachable held ∧ P (h.letGo items) [] := by
  cases items with
  | nil => exact ⟨hr, hp⟩
  | cons item items =>
    refine settle_induction Heap.collect
      (P := fun k items => k.Reachable (items.flatMap Pending.references ++ held) ∧ P k items)
      ?_ ?_ _ (item :: items) h le_rfl ⟨hr, hp⟩
    · rintro k item rest ⟨hk, hp⟩
      rw [List.flatMap_cons, List.append_assoc] at hk
      rw [List.flatMap_append, List.append_assoc]
      exact ⟨hk.release, hstep hk hp⟩
    · rintro k item rest ⟨hk, _⟩
      exact hk.sound.collect.2

/-- **Pending items are let go**, with all that follows from it. -/
theorem letGo {items : List Pending}
    (hr : h.Reachable (items.flatMap Pending.references ++ held)) :
    (h.letGo items).Reachable held ∧ Shrinks h (h.letGo items) :=
  hr.letGo_induction (P := fun k _ => Shrinks h k) (fun hk hs => hs.trans hk.sound.release.2)
    (Shrinks.refl h)

/-- Handles are given back on nodes that are stored, or held once more. -/
theorem handOver (ids : List NodeId) : ∀ {h : Heap}, h.Reachable (ids ++ held) →
    (∀ id ∈ ids, 0 < h.storedCount id ∨ id ∈ held) →
    (h.removeHandles ids).Reachable held ∧ Shrinks h (h.removeHandles ids) := by
  induction ids with
  | nil => exact fun hr _ => ⟨hr, Shrinks.refl _⟩
  | cons id ids ih =>
    intro h hr hkeep
    have hr : h.Reachable ((Pending.reference id).references ++ (ids ++ held)) := hr
    have hcount := hr.sound.counted.handles_eq id
    have hreferenced : (h.removeHandle id).isReferenced id = true := by
      rw [isReferenced_iff, strongCount, handles_removeHandle, if_pos rfl, hcount,
        storedCount_removeHandle]
      rcases hkeep id (List.mem_cons_self ..) with hp | hm
      · omega
      · have := List.count_pos_iff.mpr hm
        simp only [Pending.references, List.count_append, List.count_cons_self, List.count_nil]
        omega
    have hstep := hr.release
    rw [Heap.letGoOne] at hstep
    simp only [hreferenced, if_true] at hstep
    obtain ⟨hk, hs⟩ := ih hstep fun x hx => by
      rw [storedCount_removeHandle]
      exact hkeep x (List.mem_cons_of_mem id hx)
    exact ⟨hk, (shrinks_removeHandle h id).trans hs⟩

theorem alloc {node : Node} (hr : h.Reachable held) (hl : ∀ l ∈ node.links, h.Has l) :
    (h.alloc node).2.Reachable (h.cells.size :: held) ∧
      Shrinks ((h.push node).enter h.cells.size) (h.alloc node).2 := by
  have hk := hr.enter hl
  rw [Heap.alloc, register]
  dsimp only
  split
  · exact ⟨hk.collect, hk.sound.collect.2⟩
  · exact ⟨hk, Shrinks.refl _⟩

end Reachable

end Heap

end ScriptCore
