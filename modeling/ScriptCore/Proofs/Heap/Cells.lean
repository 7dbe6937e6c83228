import Mathlib
import ScriptCore.Heap.Collect

/-!
# Cells

How the changes of a heap show when it is read afterwards, cell by cell, and sums over the live
cells. A change of one cell changes such a sum by the difference in that cell: `total_setCell`.
-/

namespace ScriptCore

namespace Heap

variable {h : Heap} {id other : NodeId}

/-! ## Live nodes -/

theorem isLive_iff_node? : h.isLive id = true ↔ ∃ node, h.node? id = some node := by
  simp only [isLive, node?, Option.isSome_iff_exists, Option.map_eq_some_iff]
  exact ⟨fun ⟨c, hc⟩ => ⟨c.node, c, hc, rfl⟩, fun ⟨_, c, hc, _⟩ => ⟨c, hc⟩⟩

theorem isLive_of_node? {node : Node} (hn : h.node? id = some node) : h.isLive id = true :=
  isLive_iff_node?.mpr ⟨node, hn⟩

theorem node?_eq_none_iff : h.node? id = none ↔ h.isLive id = false := by
  simp [node?, isLive]

theorem cell?_eq_none_of_size_le (hs : h.cells.size ≤ id) : h.cell? id = none := by
  simp [cell?, Array.getElem?_eq_none hs]

theorem lt_size_of_isLive (hl : h.isLive id = true) : id < h.cells.size := by
  by_contra hge
  rw [isLive, cell?_eq_none_of_size_le (Nat.le_of_not_lt hge)] at hl
  exact absurd hl (by simp)

theorem lt_size_of_node? {node : Node} (hn : h.node? id = some node) : id < h.cells.size :=
  lt_size_of_isLive (isLive_of_node? hn)

theorem handles_eq_zero_of_not_isLive (hl : h.isLive id = false) : h.handles id = 0 := by
  simp only [isLive, Option.isSome_eq_false_iff, Option.isNone_iff_eq_none] at hl
  simp [handles, hl]

theorem isLive_of_handles_pos (hp : 0 < h.handles id) : h.isLive id = true := by
  by_contra hl
  rw [handles_eq_zero_of_not_isLive (by simpa using hl)] at hp
  exact absurd hp (by simp)

/-! ## What the changes of a cell leave alone -/

/-- Two heaps that differ in nodes, handles, books and reports only. -/
structure SameFrame (h k : Heap) : Prop where
  size : k.cells.size = h.cells.size
  realm : k.realm = h.realm
  borrowed : k.borrowed = h.borrowed
  displayDepth : k.displayDepth = h.displayDepth
  places : k.places = h.places

namespace SameFrame

theorem refl (h : Heap) : SameFrame h h := ⟨rfl, rfl, rfl, rfl, rfl⟩

theorem trans {h k l : Heap} (hk : SameFrame h k) (kl : SameFrame k l) : SameFrame h l :=
  ⟨kl.size.trans hk.size, kl.realm.trans hk.realm, kl.borrowed.trans hk.borrowed,
    kl.displayDepth.trans hk.displayDepth, kl.places.trans hk.places⟩

end SameFrame

theorem sameFrame_setCell (h : Heap) (id : NodeId) (cell : Option Cell) :
    SameFrame h (h.setCell id cell) := ⟨by simp [setCell], rfl, rfl, rfl, rfl⟩

theorem sameFrame_setNode (h : Heap) (id : NodeId) (node : Node) :
    SameFrame h (h.setNode id node) := by
  rw [setNode]
  split
  · exact sameFrame_setCell h id _
  · exact SameFrame.refl h

theorem sameFrame_addHandle (h : Heap) (id : NodeId) : SameFrame h (h.addHandle id) := by
  rw [addHandle]
  split
  · exact sameFrame_setCell h id _
  · exact SameFrame.refl h

theorem sameFrame_removeHandle (h : Heap) (id : NodeId) : SameFrame h (h.removeHandle id) := by
  rw [removeHandle]
  split
  · exact sameFrame_setCell h id _
  · exact SameFrame.refl h

theorem sameFrame_addHandles (ids : List NodeId) : ∀ h : Heap, SameFrame h (h.addHandles ids) := by
  induction ids with
  | nil => exact SameFrame.refl
  | cons id ids ih => exact fun h => (sameFrame_addHandle h id).trans (ih (h.addHandle id))

@[simp] theorem collector_setNode (h : Heap) (id : NodeId) (node : Node) :
    (h.setNode id node).collector = h.collector := by
  rw [setNode]; split <;> rfl

@[simp] theorem collector_addHandle (h : Heap) (id : NodeId) :
    (h.addHandle id).collector = h.collector := by
  rw [addHandle]; split <;> rfl

@[simp] theorem collector_removeHandle (h : Heap) (id : NodeId) :
    (h.removeHandle id).collector = h.collector := by
  rw [removeHandle]; split <;> rfl

@[simp] theorem collector_addHandles (ids : List NodeId) :
    ∀ h : Heap, (h.addHandles ids).collector = h.collector := by
  induction ids with
  | nil => exact fun _ => rfl
  | cons id ids ih => exact fun h => (ih (h.addHandle id)).trans (collector_addHandle h id)

/-! ## Reading cells after a change -/

theorem cell?_setCell (h : Heap) (id other : NodeId) (cell : Option Cell) :
    (h.setCell id cell).cell? other =
      if other = id ∧ id < h.cells.size then cell else h.cell? other := by
  simp only [cell?, setCell, Array.getElem?_setIfInBounds]
  by_cases he : id = other
  · subst he
    by_cases hlt : id < h.cells.size <;> simp [hlt]
  · rw [if_neg he, if_neg (fun hc => he hc.1.symm)]

theorem node?_setNode (h : Heap) (id other : NodeId) (node : Node) :
    (h.setNode id node).node? other =
      if other = id ∧ h.isLive id = true then some node else h.node? other := by
  cases hc : h.cell? id with
  | none => simp [setNode, isLive, hc]
  | some c =>
    have hl : h.isLive id = true := by simp [isLive, hc]
    simp only [setNode, hc, node?, cell?_setCell, lt_size_of_isLive hl, hl, and_true]
    split <;> rfl

theorem node?_setNode_self {old node : Node} (hn : h.node? id = some old) :
    (h.setNode id node).node? id = some node := by
  rw [node?_setNode, if_pos ⟨rfl, isLive_of_node? hn⟩]

theorem node?_setNode_ne (h : Heap) (node : Node) (hne : other ≠ id) :
    (h.setNode id node).node? other = h.node? other := by
  rw [node?_setNode, if_neg (fun hc => hne hc.1)]

theorem handles_setNode (h : Heap) (id other : NodeId) (node : Node) :
    (h.setNode id node).handles other = h.handles other := by
  cases hc : h.cell? id with
  | none => simp [setNode, hc]
  | some c =>
    simp only [setNode, hc, handles, cell?_setCell]
    split
    · next he => simp [he.1, hc]
    · rfl

theorem isLive_setNode (h : Heap) (id other : NodeId) (node : Node) :
    (h.setNode id node).isLive other = h.isLive other := by
  rw [Bool.eq_iff_iff, isLive_iff_node?, isLive_iff_node?, node?_setNode]
  split
  · next he => simpa [he.1] using isLive_iff_node?.mp he.2
  · rfl

theorem node?_addHandle (h : Heap) (id other : NodeId) :
    (h.addHandle id).node? other = h.node? other := by
  cases hc : h.cell? id with
  | none => simp [addHandle, hc]
  | some c =>
    simp only [addHandle, hc, node?, cell?_setCell]
    split
    · next he => simp [he.1, hc]
    · rfl

theorem handles_addHandle (h : Heap) (id other : NodeId) :
    (h.addHandle id).handles other =
      h.handles other + if other = id ∧ h.isLive id = true then 1 else 0 := by
  cases hc : h.cell? id with
  | none => simp [addHandle, isLive, hc]
  | some c =>
    have hl : h.isLive id = true := by simp [isLive, hc]
    simp only [addHandle, hc, handles, cell?_setCell, lt_size_of_isLive hl, hl, and_true]
    split
    · next he => simp [he, hc]
    · rfl

theorem node?_removeHandle (h : Heap) (id other : NodeId) :
    (h.removeHandle id).node? other = h.node? other := by
  cases hc : h.cell? id with
  | none => simp [removeHandle, hc]
  | some c =>
    simp only [removeHandle, hc, node?, cell?_setCell]
    split
    · next he => simp [he.1, hc]
    · rfl

theorem handles_removeHandle (h : Heap) (id other : NodeId) :
    (h.removeHandle id).handles other = h.handles other - if other = id then 1 else 0 := by
  cases hc : h.cell? id with
  | none =>
    have hz : h.handles id = 0 := by simp [handles, hc]
    by_cases he : other = id
    · simp [removeHandle, hc, he, hz]
    · simp [removeHandle, hc, he]
  | some c =>
    have hlt : id < h.cells.size := lt_size_of_isLive (by simp [isLive, hc])
    simp only [removeHandle, hc, handles, cell?_setCell, hlt, and_true]
    split
    · next he => simp [he, hc]
    · rfl

theorem isLive_congr {h k : Heap} (hn : k.node? id = h.node? id) : k.isLive id = h.isLive id := by
  rw [Bool.eq_iff_iff, isLive_iff_node?, isLive_iff_node?, hn]

theorem node?_addHandles (ids : List NodeId) (other : NodeId) :
    ∀ h : Heap, (h.addHandles ids).node? other = h.node? other := by
  induction ids with
  | nil => exact fun _ => rfl
  | cons id ids ih => exact fun h => (ih (h.addHandle id)).trans (node?_addHandle h id other)

theorem handles_addHandles (ids : List NodeId) (other : NodeId) :
    ∀ h : Heap, (∀ id ∈ ids, h.isLive id = true) →
      (h.addHandles ids).handles other = h.handles other + ids.count other := by
  induction ids with
  | nil => exact fun _ _ => rfl
  | cons id ids ih =>
    intro h hl
    have hstep : ∀ x ∈ ids, (h.addHandle id).isLive x = true := fun x hx => by
      rw [isLive_congr (node?_addHandle h id x)]
      exact hl x (List.mem_cons_of_mem id hx)
    rw [addHandles, List.foldl_cons, ← addHandles, ih (h.addHandle id) hstep, handles_addHandle,
      List.count_cons]
    by_cases he : other = id
    · simp [he, hl id (List.mem_cons_self ..)]; omega
    · simp [he, Ne.symm he]

theorem node?_free (h : Heap) (id other : NodeId) :
    (h.free id).node? other = if other = id then none else h.node? other := by
  simp only [free, node?, cell?_setCell]
  by_cases he : other = id
  · subst he
    by_cases hlt : other < h.cells.size
    · simp [hlt]
    · simp [hlt, cell?_eq_none_of_size_le (Nat.le_of_not_lt hlt)]
  · simp [he]

theorem handles_free (h : Heap) (hne : other ≠ id) :
    (h.free id).handles other = h.handles other := by
  simp [free, handles, cell?_setCell, hne]

theorem cell?_push (h : Heap) (node : Node) (other : NodeId) :
    (h.push node).cell? other =
      if other = h.cells.size then some ⟨1, node⟩ else h.cell? other := by
  rw [cell?, push, Array.getElem?_push]
  split <;> rfl

theorem node?_push (h : Heap) (node : Node) (other : NodeId) :
    (h.push node).node? other = if other = h.cells.size then some node else h.node? other := by
  rw [node?, cell?_push]
  split <;> rfl

theorem handles_push (h : Heap) (node : Node) (other : NodeId) :
    (h.push node).handles other = h.handles other + if other = h.cells.size then 1 else 0 := by
  rw [handles, cell?_push]
  split
  · next he => simp [he, handles, cell?_eq_none_of_size_le]
  · rfl

/-! ## Sums over the live cells -/

theorem total_def (h : Heap) (f : Cell → Nat) : h.total f = (h.liveCells.map f).sum := rfl

theorem sum_map_filterMap (f : Cell → Nat) (slots : List (Option Cell)) :
    ((slots.filterMap fun slot => slot).map f).sum =
      ∑ x ∈ Finset.range slots.length, (slots[x]?.join.map f).getD 0 := by
  induction slots with
  | nil => rfl
  | cons slot slots ih =>
    rw [List.length_cons, Finset.sum_range_succ']
    cases slot with
    | none => simpa using ih
    | some c => simpa [add_comm] using ih

theorem total_eq_sum (h : Heap) (f : Cell → Nat) :
    h.total f = ∑ x ∈ Finset.range h.cells.size, ((h.cell? x).map f).getD 0 := by
  have := sum_map_filterMap f h.cells.toList
  simpa [total_def, liveCells, cell?] using this

/-- **A change of one cell** changes a sum by the difference in that cell. -/
theorem total_setCell (f : Cell → Nat) (cell : Option Cell) (hlt : id < h.cells.size) :
    (h.setCell id cell).total f + ((h.cell? id).map f).getD 0 =
      h.total f + (cell.map f).getD 0 := by
  have hmem : id ∈ Finset.range h.cells.size := Finset.mem_range.mpr hlt
  have hrest : ∑ x ∈ (Finset.range h.cells.size).erase id,
        (((h.setCell id cell).cell? x).map f).getD 0 =
      ∑ x ∈ (Finset.range h.cells.size).erase id, ((h.cell? x).map f).getD 0 :=
    Finset.sum_congr rfl fun x hx => by
      rw [cell?_setCell, if_neg fun hc => Finset.ne_of_mem_erase hx hc.1]
  rw [total_eq_sum, total_eq_sum, (sameFrame_setCell h id cell).size,
    ← Finset.add_sum_erase _ _ hmem, ← Finset.add_sum_erase _ _ hmem, hrest, cell?_setCell,
    if_pos ⟨rfl, hlt⟩]
  ring

theorem total_setNode {old : Node} (f : Node → Nat) (node : Node) (hn : h.node? id = some old) :
    (h.setNode id node).total (fun c => f c.node) + f old = h.total (fun c => f c.node) + f node := by
  obtain ⟨c, hc, rfl⟩ := Option.map_eq_some_iff.mp hn
  have := total_setCell (fun c => f c.node) (some { c with node := node }) (lt_size_of_node? hn)
  simpa [setNode, hc] using this

theorem total_free {old : Node} (f : Node → Nat) (hn : h.node? id = some old) :
    (h.free id).total (fun c => f c.node) + f old = h.total (fun c => f c.node) := by
  obtain ⟨c, hc, rfl⟩ := Option.map_eq_some_iff.mp hn
  have := total_setCell (fun c => f c.node) none (lt_size_of_node? hn)
  simpa [free, hc] using this

theorem total_push (h : Heap) (f : Node → Nat) (node : Node) :
    (h.push node).total (fun c => f c.node) = h.total (fun c => f c.node) + f node := by
  simp [total_def, liveCells, push, List.filterMap_append]

theorem total_congr {h k : Heap} (f : Node → Nat) (hs : k.cells.size = h.cells.size)
    (hn : ∀ x, k.node? x = h.node? x) :
    k.total (fun c => f c.node) = h.total (fun c => f c.node) := by
  rw [total_eq_sum, total_eq_sum, hs]
  refine Finset.sum_congr rfl fun x _ => ?_
  have hx := congrArg (Option.map f) (hn x)
  simp only [node?, Option.map_map] at hx
  exact congrArg (Option.getD · 0) hx

theorem total_pos_iff (h : Heap) (f : Node → Nat) :
    0 < h.total (fun c => f c.node) ↔ ∃ x node, h.node? x = some node ∧ 0 < f node := by
  rw [total_eq_sum, Finset.sum_pos_iff]
  constructor
  · rintro ⟨x, _, hx⟩
    cases hc : h.cell? x with
    | none => simp [hc] at hx
    | some c => exact ⟨x, c.node, by simp [node?, hc], by simpa [hc] using hx⟩
  · rintro ⟨x, node, hn, hp⟩
    obtain ⟨c, hc, rfl⟩ := Option.map_eq_some_iff.mp hn
    exact ⟨x, Finset.mem_range.mpr (lt_size_of_node? hn), by simpa [hc] using hp⟩

end Heap

end ScriptCore
