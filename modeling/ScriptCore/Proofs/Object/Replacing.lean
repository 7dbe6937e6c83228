import ScriptCore.Proofs.Agreement.Writing
import ScriptCore.Proofs.Heap.Repeated

/-!
# Replacing one node

When a node is replaced, and what is lost by that is let go, nodes die and the one replaced is
another; all others are what they were (`Heap.Reachable.node?_replaceNode`). Inserting a field is one
case (`Heap.Reachable.node?_insertField`). Another object that is new may be given fields, then, and
the heap has only grown all the same (`Heap.Grows.insertField`).
-/

namespace ScriptCore

namespace Heap

variable {g h k : Heap} {id p : NodeId} {held : List NodeId} {old node : Node} {lost : List Pending}
  {o : Object} {v : Value}

/-- While a node is replaced, and what is lost by that is pending, the heap is one that can be come
to. -/
theorem Reachable.opened (hr : h.Reachable held) (hn : h.node? id = some old)
    (hkind : node.linkTo id = old.linkTo id) (hl : ∀ l ∈ node.links, h.Has l)
    (hproto : ∀ p, node.prototype? = some p →
      old.prototype? = some p ∨ ¬ Relation.ReflTransGen h.Inherits p id)
    (hpending : ∀ x ∈ lost.flatMap Pending.references, h.isLive x = true)
    (hlost : ∀ x ∈ old.references, x ∈ node.references ∨ x ∈ lost.flatMap Pending.references) :
    (h.opened id node lost).Reachable (lost.flatMap Pending.references ++ held) := by
  have hnode (x : NodeId) : (h.holdPending lost).node? x = h.node? x := node?_addHandles _ x h
  have hinherits : (h.holdPending lost).Inherits = h.Inherits := by
    funext a b
    rw [Inherits, Inherits, prototype?, prototype?, object?, object?, hnode]
  refine ((hr.holdAll _ hpending).write ((hnode id).trans hn) hkind
    (fun l hm => (hl l hm).congr (hnode _)) (fun x hx => ?_) fun p hp => ?_).borrow _
  · exact (hlost x hx).imp_right fun hm => List.mem_append_right _ (List.mem_append_left _ hm)
  · show _ ∨ ¬ Relation.ReflTransGen (h.holdPending lost).Inherits p id
    rw [hinherits]
    exact hproto p hp

/-- **Replacing a node** leaves alone what is still alive afterwards, but for the node itself. -/
theorem Reachable.node?_replaceNode (hn : h.node? id = some old)
    (hr : (h.opened id node lost).Reachable (lost.flatMap Pending.references ++ held)) :
    let k := h.replaceNode id node lost
    k.Reachable held ∧ SameFrame h k ∧
      ∀ p, k.isLive p = true → k.node? p = if p = id then some node else h.node? p := by
  obtain ⟨hk, hs⟩ := hr.letGo
  have hopen : SameFrame h ((h.holdPending lost).setNode id node) :=
    (sameFrame_addHandles _ h).trans (sameFrame_setNode _ id node)
  have hborrowed : ((h.opened id node lost).letGo lost).borrowed.erase id = h.borrowed := by
    rw [hs.borrowed, Heap.opened, hopen.borrowed, List.erase_cons_head]
  refine ⟨hk.borrow _, ⟨hs.size.trans hopen.size, hs.realm.trans hopen.realm, hborrowed,
    hs.displayDepth.trans hopen.displayDepth, hs.places.trans hopen.places⟩,
    fun p hl => (hs.node?_eq hl).trans ?_⟩
  have hhold (x : NodeId) : (h.holdPending lost).node? x = h.node? x := node?_addHandles _ x h
  show ((h.holdPending lost).setNode id node).node? p = _
  rw [node?_setNode, isLive_of_node? ((hhold id).trans hn), hhold]
  simp only [and_true]

/-! ## Inserting a field -/

/-- Inserting a field leaves alone what is still alive afterwards, but for the object itself. -/
theorem Reachable.node?_insertField (hr : h.Reachable held) (ho : h.object? id = some o)
    (hv : ∀ x, v = .object x → ∃ ox, h.object? x = some ox) (key : String) :
    let k := ((HeapM.insertField id key v).run h).2
    k.Reachable held ∧ SameFrame h k ∧
      ∀ p, k.isLive p = true → k.node? p =
        if p = id then some (.object { o with fields := o.fields.insert key v }) else h.node? p := by
  have hn := object?_eq_some_iff.mp ho
  have hhas := hr.sound.has_links hn
  let written : Node := .object { o with fields := o.fields.insert key v }
  let gone := valueLinks (o.fields.get? key).toList
  let lost := (o.fields.get? key).toList.flatMap Pending.ofValue
  have hlost : lost.flatMap Pending.references = gone.map Link.target :=
    Agree.references_flatMap_ofValue _
  have hgone {l : Link} (hl : l ∈ gone) : l ∈ o.links := by
    obtain ⟨w, hw, hl⟩ := mem_valueLinks.mp hl
    exact Object.mem_links_iff.mpr
      (Or.inr (Or.inl ⟨w, Fields.mem_values_of_get? (Option.mem_toList.mp hw), hl⟩))
  have hstays {l : Link} (hl : l ∈ o.links) : l ∈ gone ∨ l ∈ written.links :=
    Object.links_fields (o := { o with fields := o.fields.insert key v })
      (fun l => Agree.mem_valueLinks_insert_or v) hl
  have hopen : (h.opened id written lost).Reachable (lost.flatMap Pending.references ++ held) := by
    refine hr.opened hn rfl (fun l hl => ?_) (fun p hp => Or.inl hp) (fun x hx => ?_) fun x hx => ?_
    · rcases Object.links_fields (fun l => Agree.mem_valueLinks_insert) hl with hl | hl
      · cases v with
        | object x =>
          obtain rfl := List.mem_singleton.mp hl
          exact has_object_iff.mpr (hv x rfl)
        | _ => cases hl
      · exact hhas l hl
    · rw [hlost] at hx
      obtain ⟨l, hl, rfl⟩ := List.mem_map.mp hx
      exact (hhas l (hgone hl)).isLive
    · obtain ⟨l, hl, rfl⟩ := ((Node.object o).mem_references_iff x).mp hx
      rcases hstays hl with hl | hl
      · exact Or.inr (hlost ▸ List.mem_map_of_mem hl)
      · exact Or.inl ((written.mem_references_iff _).mpr ⟨l, hl, rfl⟩)
  have hrun : (HeapM.insertField id key v).run h = ((), h.replaceNode id written lost) := by
    simp only [HeapM.insertField, StateT.run_bind, StateT.run_get, pure_bind, ho]
    rfl
  rw [hrun]
  exact Reachable.node?_replaceNode hn hopen

/-- **A field of an object that is new** is inserted, and what was there before stays. -/
theorem Grows.insertField (hg : Grows g h) (hfresh : g.cells.size ≤ id) (hr : h.Reachable held)
    (ho : h.object? id = some o) (hv : ∀ x, v = .object x → ∃ ox, h.object? x = some ox)
    (key : String) : Grows g ((HeapM.insertField id key v).run h).2 := by
  obtain ⟨-, hframe, hnodes⟩ := hr.node?_insertField ho hv key
  refine ⟨hg.size_le.trans hframe.size.ge, hframe.displayDepth.trans hg.displayDepth,
    fun {x node} hlt hn => hg.nodes hlt ?_⟩
  rw [hnodes x (isLive_of_node? hn), if_neg (Nat.ne_of_lt (hlt.trans_le hfresh))] at hn
  exact hn

theorem Reachable.object?_insertField (hr : h.Reachable held) (ho : h.object? id = some o)
    (hv : ∀ x, v = .object x → ∃ ox, h.object? x = some ox) (key : String)
    (hl : ((HeapM.insertField id key v).run h).2.isLive id = true) :
    ((HeapM.insertField id key v).run h).2.object? id =
      some { o with fields := o.fields.insert key v } := by
  obtain ⟨-, -, hnodes⟩ := hr.node?_insertField ho hv key
  exact object?_eq_some_iff.mpr ((hnodes id hl).trans (if_pos rfl))

end Heap

end ScriptCore
