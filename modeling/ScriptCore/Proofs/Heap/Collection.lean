import ScriptCore.Proofs.Heap.Marking
import ScriptCore.Proofs.Heap.Settling

/-!
# Collections

What a collection does to a heap with right counts and right books (`Counted`, `Booked`).

* `mem_sift_snd_iff`: the garbage is what cannot be reached, along references that a collection
  follows, from a node that is being changed or that has a reference which is not followed.
* `node?_sweep`: the sweep empties the garbage and no other node.
* `Counted.sweep`: what was in the garbage becomes references held, and the counts are right again.
* `collect_spec`: when its contents have been let go, the garbage is dead, and any other node is what
  it was, or has died.
-/

namespace ScriptCore

namespace Heap

variable {h : Heap} {id : NodeId} {held : List NodeId} {garbage : List NodeId}

/-- The books are in order between two collections: every live node is registered, and none twice.
-/
structure Booked (h : Heap) : Prop where
  nodup : h.collector.registry.toList.Nodup
  lt_size : ∀ {id}, id ∈ h.collector.registry.toList → id < h.cells.size
  complete : ∀ {id}, h.isLive id = true → id ∈ h.collector.registry.toList
  idle : h.collector.collecting = false

/-- A node that a collection has to keep: it can be reached along the edges from a node that is being
changed, or from one that is referenced otherwise. -/
def Needed (h : Heap) (id : NodeId) : Prop :=
  ∃ root, (root ∈ h.borrowed ∨ h.External root) ∧ Relation.ReflTransGen h.Follows root id

/-! ## What is garbage -/

theorem mem_registered_iff (hb : h.Booked) : id ∈ h.registered ↔ h.isLive id = true := by
  rw [registered, List.mem_filter]
  exact ⟨fun hm => hm.2, fun hl => ⟨hb.complete hl, hl⟩⟩

theorem nodup_registered (hb : h.Booked) : h.registered.Nodup := hb.nodup.filter _

theorem mem_roots_iff (hb : h.Booked) :
    id ∈ h.roots h.registered ↔ h.isLive id = true ∧ (id ∈ h.borrowed ∨ h.External id) := by
  rw [roots, List.mem_filter, mem_registered_iff hb, Bool.or_eq_true, decide_eq_true_eq,
    List.contains_iff_mem]
  refine and_congr_right fun hl => ?_
  rw [externalCounts_pos_iff (nodup_registered hb) (fun x => mem_registered_iff hb)
    (lt_size_of_isLive hl)]
  exact or_comm

/-- **A live node is marked exactly if it has to be kept.** -/
theorem isMarked_iff_needed (hb : h.Booked) (hl : h.isLive id = true) :
    isMarked (h.marks h.registered) id = true ↔ h.Needed id := by
  rw [isMarked_marks_iff fun x => mem_registered_iff hb]
  constructor
  · rintro ⟨_, root, hr, hp⟩
    exact ⟨root, ((mem_roots_iff hb).mp hr).2, hp⟩
  · rintro ⟨root, hr, hp⟩
    -- A dead root has no edges, so it would be the node itself, and that is alive.
    have hroot : h.isLive root = true := by
      rcases Relation.ReflTransGen.cases_head hp with rfl | ⟨next, hf, _⟩
      · exact hl
      · exact isLive_of_edges_ne_nil (List.ne_nil_of_mem hf)
    exact ⟨lt_size_of_isLive hl, root, (mem_roots_iff hb).mpr ⟨hroot, hr⟩, hp⟩

theorem isKept_eq_isMarked (hb : h.Booked) (hl : h.isLive id = true) :
    h.isKept (h.marks h.registered) id = isMarked (h.marks h.registered) id := by
  rw [Bool.eq_iff_iff, isKept, Bool.or_eq_true, List.contains_iff_mem, ← isMarked, or_iff_left_iff_imp]
  exact fun hm => (isMarked_iff_needed hb hl).mpr ⟨id, Or.inl hm, .refl⟩

theorem isKept_iff (hb : h.Booked) (hl : h.isLive id = true) :
    h.isKept (h.marks h.registered) id = true ↔ h.Needed id := by
  rw [isKept_eq_isMarked hb hl, isMarked_iff_needed hb hl]

theorem mem_sift_fst_iff (hb : h.Booked) :
    id ∈ h.sift.1 ↔ h.isLive id = true ∧ h.Needed id := by
  rw [sift, List.partition_eq_filter_filter, List.mem_filter, mem_registered_iff hb]
  exact and_congr_right fun hl => isKept_iff hb hl

/-- **What is garbage**: the live nodes that need not be kept. -/
theorem mem_sift_snd_iff (hb : h.Booked) :
    id ∈ h.sift.2 ↔ h.isLive id = true ∧ ¬ h.Needed id := by
  rw [sift, List.partition_eq_filter_filter, List.mem_filter, mem_registered_iff hb]
  refine and_congr_right fun hl => ?_
  rw [Function.comp_apply, Bool.not_eq_true', ← Bool.not_eq_true, isKept_iff hb hl]

theorem nodup_sift (hb : h.Booked) : h.sift.1.Nodup ∧ h.sift.2.Nodup := by
  rw [sift, List.partition_eq_filter_filter]
  exact ⟨(nodup_registered hb).filter _, (nodup_registered hb).filter _⟩

/-! ## The sweep -/

theorem contentsOf_of_node? {node : Node} (hn : h.node? id = some node) :
    h.contentsOf id = node.contents := by rw [contentsOf, hn]

theorem contentsOf_congr {k : Heap} (hn : k.node? id = h.node? id) :
    k.contentsOf id = h.contentsOf id := by rw [contentsOf, contentsOf, hn]

theorem node?_emptyNode (h : Heap) (id other : NodeId) :
    (h.emptyNode id).node? other =
      if other = id then (h.node? other).map Node.emptied else h.node? other := by
  cases hn : h.node? id with
  | none =>
    simp only [emptyNode, hn]
    by_cases he : other = id
    · rw [if_pos he, he, hn]; rfl
    · rw [if_neg he]
  | some node =>
    simp only [emptyNode, hn]
    rw [node?_setNode, isLive_of_node? hn]
    by_cases he : other = id
    · rw [if_pos ⟨he, rfl⟩, if_pos he, he, hn]; rfl
    · rw [if_neg fun hc => he hc.1, if_neg he]

theorem sameFrame_emptyNode (h : Heap) (id : NodeId) : SameFrame h (h.emptyNode id) := by
  rw [emptyNode]
  split
  · exact sameFrame_setNode h id _
  · exact SameFrame.refl h

theorem handles_emptyNode (h : Heap) (id other : NodeId) :
    (h.emptyNode id).handles other = h.handles other := by
  rw [emptyNode]
  split
  · exact handles_setNode h id other _
  · rfl

theorem Node.emptied_emptied (node : Node) : node.emptied.emptied = node.emptied := by
  cases node <;> rfl

theorem node?_foldl_emptyNode (garbage : List NodeId) (x : NodeId) : ∀ h : Heap,
    (garbage.foldl emptyNode h).node? x =
      if x ∈ garbage then (h.node? x).map Node.emptied else h.node? x := by
  induction garbage with
  | nil => intro h; simp
  | cons id garbage ih =>
    intro h
    rw [List.foldl_cons, ih, node?_emptyNode]
    by_cases he : x = id
    · subst he
      by_cases hm : x ∈ garbage
      · simp [hm, Function.comp_def, Node.emptied_emptied]
      · simp [hm]
    · simp [he]

theorem sameFrame_foldl_emptyNode (garbage : List NodeId) : ∀ h : Heap,
    SameFrame h (garbage.foldl emptyNode h) := by
  induction garbage with
  | nil => exact SameFrame.refl
  | cons id garbage ih => exact fun h => (sameFrame_emptyNode h id).trans (ih _)

theorem handles_foldl_emptyNode (garbage : List NodeId) (x : NodeId) : ∀ h : Heap,
    (garbage.foldl emptyNode h).handles x = h.handles x := by
  induction garbage with
  | nil => exact fun _ => rfl
  | cons id garbage ih => exact fun h => (ih _).trans (handles_emptyNode h id x)

/-- Of a sum over the live nodes, what the emptied nodes added is missing. -/
theorem total_foldl_emptyNode (f : Node → Nat) (hf : ∀ node : Node, f node.emptied = 0)
    (garbage : List NodeId) (hd : garbage.Nodup) : ∀ h : Heap,
      (garbage.foldl emptyNode h).total (fun c => f c.node) +
        (garbage.map fun id => ((h.node? id).map f).getD 0).sum = h.total fun c => f c.node := by
  have hstep (h : Heap) (id : NodeId) : (h.emptyNode id).total (fun c => f c.node) +
      ((h.node? id).map f).getD 0 = h.total fun c => f c.node := by
    cases hn : h.node? id with
    | none => simp [emptyNode, hn]
    | some node =>
      have hset := total_setNode f node.emptied hn
      rw [hf] at hset
      rw [emptyNode, hn]
      exact hset
  induction garbage with
  | nil => intro h; simp
  | cons id garbage ih =>
    intro h
    obtain ⟨hnot, hd⟩ := List.nodup_cons.mp hd
    have hrest : (garbage.map fun y => (((h.emptyNode id).node? y).map f).getD 0) =
        garbage.map fun y => ((h.node? y).map f).getD 0 := by
      refine List.map_congr_left fun y hy => ?_
      rw [node?_emptyNode, if_neg]
      rintro rfl
      exact hnot hy
    have hfirst := hstep h id
    have hall := ih hd (h.emptyNode id)
    rw [hrest] at hall
    rw [List.foldl_cons, List.map_cons, List.sum_cons]
    omega

theorem count_flatMap_contentsOf {α : Type} [BEq α] (f : Pending → List α) (x : α) (h : Heap)
    (ids : List NodeId) : ((ids.flatMap h.contentsOf).flatMap f).count x =
      (ids.map fun id =>
        ((h.node? id).map fun node => (node.contents.flatMap f).count x).getD 0).sum := by
  induction ids with
  | nil => rfl
  | cons id ids ih =>
    rw [List.flatMap_cons, List.flatMap_append, List.count_append, ih, List.map_cons, List.sum_cons,
      contentsOf]
    cases h.node? id <;> rfl

theorem storedCount_foldl_emptyNode (garbage : List NodeId) (x : NodeId) (hd : garbage.Nodup)
    (h : Heap) : (garbage.foldl emptyNode h).storedCount x +
      ((garbage.flatMap h.contentsOf).flatMap Pending.references).count x = h.storedCount x := by
  have hcontents (node : Node) : (node.contents.flatMap Pending.references).count x =
      node.references.count x := (Node.references_contents node).count_eq x
  rw [count_flatMap_contentsOf]
  simp only [hcontents]
  exact total_foldl_emptyNode (fun node => node.references.count x) (by simp) garbage hd h

/-- **The sweep empties the garbage** and leaves the other nodes as they are. -/
theorem node?_sweep (h : Heap) (kept garbage : List NodeId) (x : NodeId) :
    (h.sweep kept garbage).node? x =
      if x ∈ garbage then (h.node? x).map Node.emptied else h.node? x := by
  have hfold := node?_foldl_emptyNode garbage x (h.holdPending (garbage.flatMap h.contentsOf))
  rw [holdPending, node?_addHandles] at hfold
  exact hfold

theorem isLive_sweep (h : Heap) (kept garbage : List NodeId) (x : NodeId) :
    (h.sweep kept garbage).isLive x = h.isLive x := by
  rw [Bool.eq_iff_iff, isLive_iff_node?, isLive_iff_node?, node?_sweep]
  split
  · simp only [Option.map_eq_some_iff]
    exact ⟨fun ⟨_, node, hn, _⟩ => ⟨node, hn⟩, fun ⟨node, hn⟩ => ⟨_, node, hn, rfl⟩⟩
  · rfl

theorem sameFrame_sweep (h : Heap) (kept garbage : List NodeId) :
    SameFrame h (h.sweep kept garbage) := by
  have hfold := (sameFrame_addHandles ((garbage.flatMap h.contentsOf).flatMap Pending.references)
    h).trans (sameFrame_foldl_emptyNode garbage (h.holdPending (garbage.flatMap h.contentsOf)))
  exact ⟨hfold.size, hfold.realm, hfold.borrowed, hfold.displayDepth, hfold.places⟩

/-- **After the sweep** what was in the garbage is held, and the counts are right. -/
theorem Counted.sweep (hc : h.Counted held) (hd : garbage.Nodup) (kept : List NodeId) :
    (h.sweep kept garbage).Counted
      ((garbage.flatMap h.contentsOf).flatMap Pending.references ++ held) := by
  have hlive : ∀ x ∈ (garbage.flatMap h.contentsOf).flatMap Pending.references,
      h.isLive x = true := fun x hx => by
    obtain ⟨item, hitem, hx⟩ := List.mem_flatMap.mp hx
    obtain ⟨src, _, hitem⟩ := List.mem_flatMap.mp hitem
    cases hn : h.node? src with
    | none => simp [contentsOf, hn] at hitem
    | some node =>
      rw [contentsOf_of_node? hn] at hitem
      exact hc.stored_live hn x ((Node.references_contents node).mem_iff.mp
        (List.mem_flatMap.mpr ⟨item, hitem, hx⟩))
  have hhandles (x : NodeId) : (h.sweep kept garbage).handles x = h.handles x +
      ((garbage.flatMap h.contentsOf).flatMap Pending.references).count x :=
    (handles_foldl_emptyNode garbage x _).trans (handles_addHandles _ x h hlive)
  have hstored (x : NodeId) : (h.sweep kept garbage).storedCount x +
      ((garbage.flatMap h.contentsOf).flatMap Pending.references).count x = h.storedCount x := by
    have hfold := storedCount_foldl_emptyNode garbage x hd
      (h.holdPending (garbage.flatMap h.contentsOf))
    rw [holdPending, storedCount_addHandles,
      List.flatMap_congr fun y _ => contentsOf_congr (node?_addHandles _ y h)] at hfold
    exact hfold
  refine ⟨fun x => ?_, fun {src node} hn y hy => ?_, fun {x} hx => ?_⟩
  · rw [hhandles, hc.handles_eq, List.count_append, Nat.add_comm]
  · rw [isLive_sweep]
    rw [node?_sweep] at hn
    split at hn
    · obtain ⟨old, _, rfl⟩ := Option.map_eq_some_iff.mp hn
      exact absurd hy (by simp)
    · exact hc.stored_live hn y hy
  · rw [isLive_sweep] at hx
    have hp := hc.referenced hx
    have := hhandles x
    have := hstored x
    rw [strongCount] at hp ⊢
    omega

/-! ## A whole collection -/

theorem collect_eq (hi : h.collector.collecting = false) :
    h.collect = (((h.sweep h.sift.1 h.sift.2).settleQuietly
      (h.sift.2.flatMap h.contentsOf)).endCollection, h.sift.2.length) := by
  rw [collect, hi]; rfl

theorem not_mem_references_of_needed {src : NodeId} {node : Node} (hn : h.node? src = some node)
    (hs : h.Needed src) (hnot : ¬ h.Needed id) : id ∉ node.references := by
  intro hm
  obtain ⟨root, hroot, hp⟩ := hs
  rcases List.mem_append.mp hm with ht | hh
  · by_cases hb : src ∈ h.borrowed
    · exact hnot ⟨id, Or.inr (Or.inr ⟨src, node, hn, Or.inr ⟨hb, ht⟩⟩), .refl⟩
    · exact hnot ⟨root, hroot, hp.tail (by rwa [Follows, edges_of_node? hn, if_neg hb])⟩
  · exact hnot ⟨id, Or.inr (Or.inr ⟨src, node, hn, Or.inl hh⟩), .refl⟩

section

variable {k : Heap} (hc : h.Counted held) (hb : h.Booked) (hk : k.Counted held)
  (hs : Shrinks (h.sweep h.sift.1 h.sift.2) k)

include hc hb hk hs

/-- **The garbage is dead** once what was in it has been let go. -/
theorem isLive_of_mem_garbage (hm : id ∈ h.sift.2) : k.isLive id = false := by
  by_contra hl
  obtain ⟨hlive, hnot⟩ := (mem_sift_snd_iff hb).mp hm
  -- It is held by no one, for else it would have been kept.
  have hz : k.handles id = 0 := by
    rw [hk.handles_eq, ← hc.handles_eq]
    by_contra hne
    exact hnot ⟨id, Or.inr (Or.inl (Nat.pos_of_ne_zero hne)), .refl⟩
  obtain ⟨src, node, hn, hr⟩ := hk.exists_stored (by simpa using hl) hz
  have hsrc := hs.nodes hn
  rw [node?_sweep] at hsrc
  split at hsrc
  · obtain ⟨old, _, rfl⟩ := Option.map_eq_some_iff.mp hsrc
    exact absurd hr (by simp)
  · next hgarbage =>
    refine not_mem_references_of_needed hsrc ?_ hnot hr
    by_contra hneed
    exact hgarbage ((mem_sift_snd_iff hb).mpr ⟨isLive_of_node? hsrc, hneed⟩)

theorem shrinks_of_sweep : Shrinks h k := by
  refine ⟨(sameFrame_sweep h _ _).trans hs.toSameFrame, fun {id node} hn => ?_⟩
  have hsweep := hs.nodes hn
  rw [node?_sweep, if_neg] at hsweep
  · exact hsweep
  · intro hm
    exact absurd (isLive_of_mem_garbage hc hb hk hs hm) (by rw [isLive_of_node? hn]; simp)

/-- **The books are in order** with what was kept for a registry. -/
theorem booked_of_sweep (hreg : k.collector.registry.toList = h.sift.1) : k.endCollection.Booked := by
  have hshrinks := shrinks_of_sweep hc hb hk hs
  refine ⟨hreg ▸ (nodup_sift hb).1, fun {id} hm => ?_, fun {id} hl => ?_, rfl⟩
  · have hm : id ∈ h.sift.1 := hreg ▸ hm
    exact hshrinks.size ▸ lt_size_of_isLive ((mem_sift_fst_iff hb).mp hm).1
  · have hl : k.isLive id = true := hl
    have hlive := hshrinks.isLive hl
    refine hreg ▸ (mem_sift_fst_iff hb).mpr ⟨hlive, ?_⟩
    by_contra hneed
    have hdead := isLive_of_mem_garbage hc hb hk hs ((mem_sift_snd_iff hb).mpr ⟨hlive, hneed⟩)
    exact absurd hl (by simp [hdead])

end

/-- **A whole collection**: the counts and the books are right afterwards, nodes have only died, and
among them is all the garbage. -/
theorem collect_spec (hc : h.Counted held) (hb : h.Booked) :
    h.collect.1.Counted held ∧ h.collect.1.Booked ∧ Shrinks h h.collect.1 ∧
      ∀ id ∈ h.sift.2, h.collect.1.isLive id = false := by
  obtain ⟨hk, hs, hbooks⟩ := (hc.sweep (nodup_sift hb).2 h.sift.1).settleQuietly
  rw [collect_eq hb.idle]
  generalize (h.sweep h.sift.1 h.sift.2).settleQuietly (h.sift.2.flatMap h.contentsOf) = k
    at hk hs hbooks
  have hshrinks := shrinks_of_sweep hc hb hk hs
  have hreg : k.collector.registry.toList = h.sift.1 := by rw [hbooks]; rfl
  have hdead (id : NodeId) (hm : id ∈ h.sift.2) : k.isLive id = false :=
    isLive_of_mem_garbage hc hb hk hs hm
  exact ⟨⟨hk.handles_eq, hk.stored_live, hk.referenced⟩, booked_of_sweep hc hb hk hs hreg,
    ⟨⟨hshrinks.size, hshrinks.realm, hshrinks.borrowed, hshrinks.displayDepth, hshrinks.places⟩,
      hshrinks.nodes⟩, hdead⟩

end Heap

end ScriptCore
