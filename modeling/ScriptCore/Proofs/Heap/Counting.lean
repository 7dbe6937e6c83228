import ScriptCore.Proofs.Heap.Cells
import ScriptCore.Proofs.Heap.Links

/-!
# Reference counts

`Counted h held`: the handles on the heap are exactly the references in `held`, everything stored is
alive, and everything alive is referenced. Letting one reference go keeps this, whether its node
survives (`Counted.removeHandle`) or dies (`Counted.free`): then the references that it stored
become references held.

`Shrinks h k`: nodes may have died between `h` and `k`, and no other node has changed.
-/

namespace ScriptCore

namespace Heap

variable {h k : Heap} {id other : NodeId} {held : List NodeId}

/-! ## Stored references -/

theorem storedCount_congr (hs : k.cells.size = h.cells.size) (hn : ∀ x, k.node? x = h.node? x) :
    k.storedCount id = h.storedCount id :=
  total_congr (fun node => node.references.count id) hs hn

theorem storedCount_pos_iff :
    0 < h.storedCount id ↔ ∃ src node, h.node? src = some node ∧ id ∈ node.references := by
  rw [show h.storedCount id = h.total fun c => c.node.references.count id from rfl,
    total_pos_iff h fun node => node.references.count id]
  simp only [List.count_pos_iff]

theorem storedCount_setNode {old : Node} (node : Node) (hn : h.node? id = some old)
    (other : NodeId) :
    (h.setNode id node).storedCount other + old.references.count other =
      h.storedCount other + node.references.count other :=
  total_setNode (fun node => node.references.count other) node hn

theorem storedCount_free {old : Node} (hn : h.node? id = some old) :
    (h.free id).storedCount other + old.references.count other = h.storedCount other :=
  total_free (fun node => node.references.count other) hn

theorem storedCount_push (h : Heap) (node : Node) :
    (h.push node).storedCount id = h.storedCount id + node.references.count id :=
  total_push h (fun node => node.references.count id) node

theorem storedCount_addHandle (h : Heap) (id other : NodeId) :
    (h.addHandle id).storedCount other = h.storedCount other :=
  storedCount_congr (sameFrame_addHandle h id).size (node?_addHandle h id)

theorem storedCount_addHandles (h : Heap) (ids : List NodeId) (other : NodeId) :
    (h.addHandles ids).storedCount other = h.storedCount other :=
  storedCount_congr (sameFrame_addHandles ids h).size (node?_addHandles ids · h)

theorem storedCount_removeHandle (h : Heap) (id other : NodeId) :
    (h.removeHandle id).storedCount other = h.storedCount other :=
  storedCount_congr (sameFrame_removeHandle h id).size (node?_removeHandle h id)

theorem not_mem_references {node : Node} (hz : h.storedCount id = 0)
    (hn : h.node? other = some node) : id ∉ node.references := fun hm =>
  Nat.ne_of_gt (storedCount_pos_iff.mpr ⟨other, node, hn, hm⟩) hz

theorem any_refersTo_iff :
    (h.cells.any fun slot => slot.any fun cell => cell.node.refersTo id) = true ↔
      ∃ src node, h.node? src = some node ∧ id ∈ node.references := by
  rw [Array.any_eq_true]
  constructor
  · rintro ⟨src, hlt, hr⟩
    cases hc : h.cells[src] with
    | none => simp [hc] at hr
    | some c =>
      rw [hc, Option.any_some] at hr
      refine ⟨src, c.node, ?_, (Node.refersTo_eq_true_iff c.node id).mp hr⟩
      simp [node?, cell?, Array.getElem?_eq_getElem hlt, hc]
  · rintro ⟨src, node, hn, hr⟩
    have hlt := lt_size_of_node? hn
    obtain ⟨c, hc, rfl⟩ := Option.map_eq_some_iff.mp hn
    refine ⟨src, hlt, ?_⟩
    rw [cell?, Array.getElem?_eq_getElem hlt, Option.join_some] at hc
    rw [hc, Option.any_some]
    exact (Node.refersTo_eq_true_iff c.node id).mpr hr

theorem isReferenced_iff : h.isReferenced id = true ↔ 0 < h.strongCount id := by
  rw [isReferenced, Bool.or_eq_true, decide_eq_true_eq, any_refersTo_iff, ← storedCount_pos_iff,
    strongCount]
  omega

/-! ## Counted heaps -/

/-- The handles are the references held, what is stored is alive, and what is alive is referenced.
-/
structure Counted (h : Heap) (held : List NodeId) : Prop where
  handles_eq : ∀ id, h.handles id = held.count id
  stored_live : ∀ {src node}, h.node? src = some node → ∀ id ∈ node.references, h.isLive id = true
  referenced : ∀ {id}, h.isLive id = true → 0 < h.strongCount id

namespace Counted

theorem perm {held' : List NodeId} (hc : h.Counted held) (hp : held.Perm held') :
    h.Counted held' :=
  ⟨fun id => (hc.handles_eq id).trans (hp.count_eq id), hc.stored_live, hc.referenced⟩

theorem handles_pos (hc : h.Counted held) (hm : id ∈ held) : 0 < h.handles id := by
  rw [hc.handles_eq]
  exact List.count_pos_iff.mpr hm

theorem isLive (hc : h.Counted held) (hm : id ∈ held) : h.isLive id = true :=
  isLive_of_handles_pos (hc.handles_pos hm)

theorem exists_stored (hc : h.Counted held) (hl : h.isLive id = true) (hz : h.handles id = 0) :
    ∃ src node, h.node? src = some node ∧ id ∈ node.references := by
  have hp := hc.referenced hl
  rwa [strongCount, hz, Nat.zero_add, storedCount_pos_iff] at hp

theorem initial : Heap.initial.Counted [] :=
  ⟨fun _ => rfl, fun hn => by simp [node?, cell?, Heap.initial] at hn,
    fun hl => by simp [Heap.isLive, cell?, Heap.initial] at hl⟩

theorem addHandle (hc : h.Counted held) (hl : h.isLive id = true) :
    (h.addHandle id).Counted (id :: held) := by
  have hn := node?_addHandle h id
  have hlive (x : NodeId) : (h.addHandle id).isLive x = h.isLive x := isLive_congr (hn x)
  refine ⟨fun x => ?_, fun hx y hy => ?_, fun {x} hx => ?_⟩
  · rw [handles_addHandle, hc.handles_eq, List.count_cons]
    by_cases he : x = id
    · simp [he, hl]
    · simp [he, Ne.symm he]
  · rw [hlive]
    exact hc.stored_live ((hn _).symm.trans hx) y hy
  · have hp := hc.referenced ((hlive x).symm.trans hx)
    rw [strongCount, handles_addHandle, storedCount_addHandle]
    rw [strongCount] at hp
    omega

theorem removeHandle (hc : h.Counted (id :: held))
    (hr : (h.removeHandle id).isReferenced id = true) : (h.removeHandle id).Counted held := by
  have hn := node?_removeHandle h id
  have hlive (x : NodeId) : (h.removeHandle id).isLive x = h.isLive x := isLive_congr (hn x)
  have hhandles (x : NodeId) : (h.removeHandle id).handles x = held.count x := by
    rw [handles_removeHandle, hc.handles_eq, List.count_cons]
    by_cases he : x = id
    · simp [he]
    · simp [he, Ne.symm he]
  refine ⟨hhandles, fun hx y hy => ?_, fun {x} hx => ?_⟩
  · rw [hlive]
    exact hc.stored_live ((hn _).symm.trans hx) y hy
  · by_cases he : x = id
    · rw [he]
      exact isReferenced_iff.mp hr
    · have hp := hc.referenced ((hlive x).symm.trans hx)
      rw [strongCount, hc.handles_eq, List.count_cons_of_ne (Ne.symm he)] at hp
      rwa [strongCount, hhandles, storedCount_removeHandle]

/-- A node that nothing refers to once a handle is given back is stored nowhere, not even in itself,
and is not held once more. -/
theorem last (hc : h.Counted (id :: held)) (hr : ¬ (h.removeHandle id).isReferenced id = true) :
    h.storedCount id = 0 ∧ held.count id = 0 := by
  rw [isReferenced_iff, strongCount, handles_removeHandle, if_pos rfl, hc.handles_eq,
    List.count_cons_self, storedCount_removeHandle] at hr
  omega

/-- The last handle is given back and its node dies. What it stored is held instead. -/
theorem free {node : Node} (hc : h.Counted (id :: held))
    (hr : ¬ (h.removeHandle id).isReferenced id = true) (hnode : h.node? id = some node) :
    (((h.removeHandle id).free id).holdPending node.contents).Counted
      (node.contents.flatMap Pending.references ++ held) := by
  have hrefs := Node.references_contents node
  have hn (x : NodeId) : ((h.removeHandle id).free id).node? x =
      if x = id then none else h.node? x := by rw [node?_free, node?_removeHandle]
  have hlive {x : NodeId} (hne : x ≠ id) :
      ((h.removeHandle id).free id).isLive x = h.isLive x :=
    isLive_congr (by rw [hn, if_neg hne])
  obtain ⟨hzero, hheld⟩ := hc.last hr
  have hcontents : ∀ x ∈ node.contents.flatMap Pending.references,
      ((h.removeHandle id).free id).isLive x = true := fun x hx => by
    have hm := hrefs.mem_iff.mp hx
    rw [hlive fun he => not_mem_references hzero hnode (he ▸ hm)]
    exact hc.stored_live hnode x hm
  have hstored (x : NodeId) :
      ((h.removeHandle id).free id).storedCount x + node.references.count x = h.storedCount x := by
    rw [storedCount_free ((node?_removeHandle h id id).trans hnode), storedCount_removeHandle]
  have hhandles (x : NodeId) : (((h.removeHandle id).free id).holdPending node.contents).handles x =
      held.count x + (node.contents.flatMap Pending.references).count x := by
    rw [holdPending, handles_addHandles _ _ _ hcontents, Nat.add_right_cancel_iff]
    by_cases he : x = id
    · rw [he, handles_eq_zero_of_not_isLive (node?_eq_none_iff.mp (by rw [hn, if_pos rfl])), hheld]
    · rw [handles_free _ he, handles_removeHandle, if_neg he, Nat.sub_zero, hc.handles_eq,
        List.count_cons_of_ne (Ne.symm he)]
  refine ⟨fun x => ?_, fun {src other} hs y hy => ?_, fun {x} hx => ?_⟩
  · rw [hhandles, List.count_append, Nat.add_comm]
  · rw [holdPending, node?_addHandles, hn] at hs
    by_cases he : src = id
    · simp [he] at hs
    · rw [if_neg he] at hs
      rw [holdPending, isLive_congr (node?_addHandles _ y _),
        hlive fun he => not_mem_references hzero hs (he ▸ hy)]
      exact hc.stored_live hs y hy
  · rw [holdPending, isLive_congr (node?_addHandles _ x _)] at hx
    have he : x ≠ id := by
      rintro rfl
      exact absurd hx (by rw [node?_eq_none_iff.mp (by rw [hn, if_pos rfl])]; simp)
    have hp := hc.referenced ((hlive he).symm.trans hx)
    rw [strongCount, hc.handles_eq, List.count_cons_of_ne (Ne.symm he)] at hp
    rw [strongCount, hhandles, hrefs.count_eq x, holdPending, storedCount_addHandles]
    have := hstored x
    omega

/-- A new node, of which the caller holds one handle. -/
theorem push {node : Node} (hc : h.Counted held) (hl : ∀ x ∈ node.references, h.isLive x = true) :
    (h.push node).Counted (h.cells.size :: held) := by
  have hold {x : NodeId} (hx : h.isLive x = true) : (h.push node).isLive x = true := by
    rw [← hx]
    refine isLive_congr ?_
    rw [node?_push, if_neg (Nat.ne_of_lt (lt_size_of_isLive hx))]
  refine ⟨fun x => ?_, fun {src other} hn y hy => ?_, fun {x} hx => ?_⟩
  · rw [handles_push, hc.handles_eq, List.count_cons]
    by_cases he : x = h.cells.size
    · simp [he]
    · simp [he, Ne.symm he]
  · rw [node?_push] at hn
    split at hn
    · obtain rfl := Option.some.inj hn
      exact hold (hl y hy)
    · exact hold (hc.stored_live hn y hy)
  · rw [strongCount, handles_push]
    by_cases he : x = h.cells.size
    · simp [he]
    · have hxl : h.isLive x = true := by
        rw [← hx]
        refine (isLive_congr ?_).symm
        rw [node?_push, if_neg he]
      have hp := hc.referenced hxl
      rw [strongCount] at hp
      rw [storedCount_push]
      omega

/-- A node is replaced. What it no longer stores is held. -/
theorem setNode {old node : Node} (hc : h.Counted held) (hn : h.node? id = some old)
    (hl : ∀ x ∈ node.references, h.isLive x = true)
    (hlost : ∀ x ∈ old.references, x ∈ node.references ∨ x ∈ held) :
    (h.setNode id node).Counted held := by
  refine ⟨fun x => ?_, fun {src other} hs y hy => ?_, fun {x} hx => ?_⟩
  · rw [handles_setNode, hc.handles_eq]
  · rw [isLive_setNode]
    rw [node?_setNode] at hs
    split at hs
    · obtain rfl := Option.some.inj hs
      exact hl y hy
    · exact hc.stored_live hs y hy
  · rw [isLive_setNode] at hx
    have hset := storedCount_setNode node hn x
    have hp := hc.referenced hx
    rw [strongCount] at hp ⊢
    rw [handles_setNode]
    by_cases hnew : x ∈ node.references
    · have := storedCount_pos_iff.mpr ⟨id, node, node?_setNode_self hn, hnew⟩
      omega
    · by_cases hold : x ∈ old.references
      · have := hc.handles_pos ((hlost x hold).resolve_left hnew)
        omega
      · rw [List.count_eq_zero_of_not_mem hnew, List.count_eq_zero_of_not_mem hold] at hset
        omega

end Counted

/-! ## Nodes only die -/

/-- Between two heaps some nodes have died, and no other node has changed. -/
structure Shrinks (h k : Heap) : Prop extends SameFrame h k where
  nodes : ∀ {id node}, k.node? id = some node → h.node? id = some node

namespace Shrinks

theorem refl (h : Heap) : Shrinks h h := ⟨.refl h, fun hn => hn⟩

theorem trans {l : Heap} (hk : Shrinks h k) (kl : Shrinks k l) : Shrinks h l :=
  ⟨hk.toSameFrame.trans kl.toSameFrame, fun hn => hk.nodes (kl.nodes hn)⟩

theorem node?_eq (hk : Shrinks h k) (hl : k.isLive id = true) : k.node? id = h.node? id := by
  obtain ⟨node, hn⟩ := isLive_iff_node?.mp hl
  rw [hn, hk.nodes hn]

theorem isLive (hk : Shrinks h k) (hl : k.isLive id = true) : h.isLive id = true :=
  (isLive_congr (hk.node?_eq hl)).symm.trans hl

theorem total_le (hk : Shrinks h k) (f : Node → Nat) :
    k.total (fun c => f c.node) ≤ h.total (fun c => f c.node) := by
  rw [total_eq_sum, total_eq_sum, hk.size]
  refine Finset.sum_le_sum fun x _ => ?_
  cases hx : k.cell? x with
  | none => simp
  | some c =>
    obtain ⟨d, hd, he⟩ := Option.map_eq_some_iff.mp (hk.nodes (show k.node? x = some c.node by
      rw [node?, hx]; rfl))
    simp [hd, he]

end Shrinks

theorem shrinks_addHandles (h : Heap) (ids : List NodeId) : Shrinks h (h.addHandles ids) :=
  ⟨sameFrame_addHandles ids h, fun hn => (node?_addHandles ids _ h).symm.trans hn⟩

theorem shrinks_removeHandle (h : Heap) (id : NodeId) : Shrinks h (h.removeHandle id) :=
  ⟨sameFrame_removeHandle h id, fun hn => (node?_removeHandle h id _).symm.trans hn⟩

theorem shrinks_free (h : Heap) (id : NodeId) : Shrinks h (h.free id) := by
  refine ⟨sameFrame_setCell h id none, fun {x node} hn => ?_⟩
  rw [node?_free] at hn
  split at hn
  · exact absurd hn (by simp)
  · exact hn

end Heap

end ScriptCore
