import ScriptCore.Proofs.Heap.Reachable
import ScriptCore.Proofs.Object.Chains

/-!
# Growth

When nodes are only put on the heap, and garbage is collected by the way, every node that was there
is what it was or has died: the heap grows. A new object is under a name that was not there before
(`Made`).
-/

namespace ScriptCore

namespace Heap

variable {g h k : Heap} {id : NodeId} {held : List NodeId} {node : Node} {o : Object}

/-- Of the nodes that were there, those that are still alive are what they were. -/
structure Grows (h k : Heap) : Prop where
  size_le : h.cells.size ≤ k.cells.size
  displayDepth : k.displayDepth = h.displayDepth
  nodes : ∀ {id node}, id < h.cells.size → k.node? id = some node → h.node? id = some node

/-- The heap has grown, and among what is new is an object. -/
structure Made (h k : Heap) (id : NodeId) (o : Object) : Prop where
  grows : Grows h k
  fresh : h.cells.size ≤ id
  object : k.object? id = some o

namespace Grows

theorem refl (h : Heap) : Grows h h := ⟨le_rfl, rfl, fun _ hn => hn⟩

theorem trans (hg : Grows g h) (hk : Grows h k) : Grows g k :=
  ⟨hg.size_le.trans hk.size_le, hk.displayDepth.trans hg.displayDepth,
    fun hlt hn => hg.nodes hlt (hk.nodes (hlt.trans_le hg.size_le) hn)⟩

theorem of_shrinks (hk : Shrinks h k) : Grows h k :=
  ⟨hk.size.ge, hk.displayDepth, fun _ hn => hk.nodes hn⟩

theorem node?_eq (hk : Grows h k) (hlt : id < h.cells.size) (hl : k.isLive id = true) :
    k.node? id = h.node? id := by
  obtain ⟨node, hn⟩ := isLive_iff_node?.mp hl
  exact hn.trans (hk.nodes hlt hn).symm

theorem object?_eq (hk : Grows h k) (hlt : id < h.cells.size) (hl : k.isLive id = true) :
    k.object? id = h.object? id := by rw [object?, object?, hk.node?_eq hlt hl]

theorem made (hg : Grows g h) (hm : Made h k id o) : Made g k id o :=
  ⟨hg.trans hm.grows, hg.size_le.trans hm.fresh, hm.object⟩

theorem alloc (hr : h.Reachable held) (hl : ∀ l ∈ node.links, h.Has l) :
    Grows h (h.alloc node).2 := by
  have hpush : Grows h ((h.push node).enter h.cells.size) := by
    refine ⟨?_, (sameFrame_enter _ _).displayDepth, fun {id other} hlt hn => ?_⟩
    · rw [(sameFrame_enter _ _).size, push, Array.size_push]
      exact Nat.le_succ _
    · rw [node?_enter_push, if_neg (Nat.ne_of_lt hlt)] at hn
      exact hn
  exact hpush.trans (of_shrinks (hr.alloc hl).2)

end Grows

theorem Made.lt_size (hm : Made h k id o) : id < k.cells.size :=
  lt_size_of_node? (object?_eq_some_iff.mp hm.object)

theorem Made.grow (hm : Made g h id o) (hk : Grows h k) (hl : k.isLive id = true) :
    Made g k id o := by
  refine ⟨hm.grows.trans hk, hm.fresh, object?_eq_some_iff.mpr ?_⟩
  exact (hk.node?_eq hm.lt_size hl).trans (object?_eq_some_iff.mp hm.object)

theorem Made.setObject (hm : Made h k id o) (other : Object) :
    Made h (k.setObject id other) id other := by
  have hframe := sameFrame_setNode k id (.object other)
  refine ⟨⟨hm.grows.size_le.trans hframe.size.ge, hframe.displayDepth.trans hm.grows.displayDepth,
    fun {x node} hlt hn => hm.grows.nodes hlt ?_⟩, hm.fresh, ?_⟩
  · exact (node?_setNode_ne k _ (Nat.ne_of_lt (hlt.trans_le hm.fresh))).symm.trans hn
  · exact object?_eq_some_iff.mpr (node?_setNode_self (object?_eq_some_iff.mp hm.object))

end Heap

end ScriptCore
