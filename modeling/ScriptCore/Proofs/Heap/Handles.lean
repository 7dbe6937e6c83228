import ScriptCore.Proofs.Heap.Reachable

/-!
# Handles taken and given back

It does not matter in which order handles are taken (`addHandles_comm`). Where they are taken on what is
referenced anyway and given back next, the heap is what it was, and nothing dies (`letGo_addHandles`).
-/

namespace ScriptCore

namespace Heap

variable {h : Heap} {id : NodeId} {held : List NodeId}

theorem setCell_comm (h : Heap) {a b : NodeId} (hab : a ≠ b) (x y : Option Cell) :
    (h.setCell a x).setCell b y = (h.setCell b y).setCell a x :=
  congrArg (fun cells => { h with cells := cells }) (Array.setIfInBounds_comm x y hab)

theorem addHandle_of_cell? {cell : Cell} (hc : h.cell? id = some cell) :
    h.addHandle id = h.setCell id (some { cell with handles := cell.handles + 1 }) := by
  rw [addHandle, hc]

theorem addHandle_of_none (hc : h.cell? id = none) : h.addHandle id = h := by rw [addHandle, hc]

theorem cell?_addHandle_ne (h : Heap) {a b : NodeId} (hab : b ≠ a) :
    (h.addHandle a).cell? b = h.cell? b := by
  cases hc : h.cell? a with
  | none => rw [addHandle_of_none hc]
  | some cell => rw [addHandle_of_cell? hc, cell?_setCell, if_neg fun he => hab he.1]

theorem addHandle_comm (h : Heap) (a b : NodeId) :
    (h.addHandle a).addHandle b = (h.addHandle b).addHandle a := by
  by_cases hab : a = b
  · rw [hab]
  · have hb := cell?_addHandle_ne h (Ne.symm hab)
    have ha := cell?_addHandle_ne h hab
    cases hca : h.cell? a with
    | none => rw [addHandle_of_none hca, addHandle_of_none (ha.trans hca)]
    | some x =>
      cases hcb : h.cell? b with
      | none => rw [addHandle_of_none hcb, addHandle_of_none (hb.trans hcb)]
      | some y =>
        rw [addHandle_of_cell? (hb.trans hcb), addHandle_of_cell? hca,
          addHandle_of_cell? (ha.trans hca), addHandle_of_cell? hcb, setCell_comm h hab]

theorem addHandles_addHandle (ids : List NodeId) (id : NodeId) :
    ∀ h : Heap, (h.addHandle id).addHandles ids = (h.addHandles ids).addHandle id := by
  induction ids with
  | nil => exact fun _ => rfl
  | cons first ids ih =>
    intro h
    show ((h.addHandle id).addHandle first).addHandles ids = _
    rw [addHandle_comm, ih]
    rfl

theorem addHandles_comm (ids others : List NodeId) :
    ∀ h : Heap, (h.addHandles ids).addHandles others = (h.addHandles others).addHandles ids := by
  induction ids with
  | nil => exact fun _ => rfl
  | cons first ids ih =>
    intro h
    show ((h.addHandle first).addHandles ids).addHandles others = _
    rw [ih, addHandles_addHandle]
    rfl

theorem removeHandle_addHandle (h : Heap) (id : NodeId) : (h.addHandle id).removeHandle id = h := by
  cases hc : h.cell? id with
  | none => simp only [addHandle, removeHandle, hc]
  | some cell =>
    have hlt : id < h.cells.size := by
      by_contra hge
      rw [cell?, Array.getElem?_eq_none (Nat.le_of_not_lt hge)] at hc
      cases hc
    have hget : h.cells[id] = some cell := by
      rw [cell?, Array.getElem?_eq_getElem hlt] at hc
      exact hc
    have hself : h.cells.setIfInBounds id (some cell) = h.cells := by
      rw [Array.setIfInBounds_def, dif_pos hlt, ← hget, Array.set_getElem_self]
    have hadd := addHandle_of_cell? hc
    have hadded : (h.addHandle id).cell? id = some ⟨cell.handles + 1, cell.node⟩ := by
      rw [hadd, cell?_setCell, if_pos ⟨rfl, hlt⟩]
    rw [removeHandle, hadded, hadd]
    show { h with cells := (h.cells.setIfInBounds id _).setIfInBounds id (some cell) } = h
    rw [Array.setIfInBounds_setIfInBounds, hself]

theorem isReferenced_addHandle (hr : h.isReferenced id = true) (other : NodeId) :
    (h.addHandle other).isReferenced id = true := by
  rw [isReferenced_iff, strongCount] at hr ⊢
  rw [handles_addHandle, storedCount_addHandle]
  omega

theorem isReferenced_addHandles (ids : List NodeId) : ∀ h : Heap, h.isReferenced id = true →
    (h.addHandles ids).isReferenced id = true := by
  induction ids with
  | nil => exact fun _ hr => hr
  | cons first ids ih => exact fun h hr => ih (h.addHandle first) (isReferenced_addHandle hr first)

theorem settle_addHandles : ∀ (ids : List NodeId) (fuel : Nat), ids.length ≤ fuel →
    (∀ id ∈ ids, h.isReferenced id = true) →
      settle collect fuel (ids.map .reference) (h.addHandles ids) = h := by
  intro ids
  induction ids with
  | nil => exact fun fuel _ _ => by cases fuel <;> rfl
  | cons id ids ih =>
    intro fuel hle hr
    obtain ⟨less, rfl⟩ : ∃ less, fuel = less + 1 := ⟨fuel - 1, by simp at hle; omega⟩
    have hreferenced : (h.addHandles ids).isReferenced id = true :=
      isReferenced_addHandles ids h (hr id List.mem_cons_self)
    have hstep : (h.addHandles (id :: ids)).letGoOne collect (.reference id) =
        ([], h.addHandles ids) := by
      show ((h.addHandle id).addHandles ids).letGoOne collect (.reference id) = _
      rw [addHandles_addHandle, letGoOne, removeHandle_addHandle]
      simp only [hreferenced, if_true]
    rw [List.map_cons, settle_succ, hstep]
    exact ih less (Nat.le_of_succ_le_succ hle) fun x hx => hr x (List.mem_cons_of_mem id hx)

/-- **What is referenced does not die by being held for a while.** -/
theorem letGo_addHandles {ids : List NodeId} (hr : ∀ id ∈ ids, h.isReferenced id = true) :
    (h.addHandles ids).letGo (ids.map .reference) = h := by
  have hweight (ids : List NodeId) : ids.length ≤ Pending.totalWeight (ids.map .reference) := by
    induction ids with
    | nil => exact Nat.zero_le _
    | cons id ids ih =>
      rw [List.map_cons, Pending.totalWeight_cons, Pending.weight, List.length_cons]
      omega
  cases ids with
  | nil => rfl
  | cons id ids =>
    exact settle_addHandles (id :: ids) _ ((hweight (id :: ids)).trans (Nat.le_add_right _ _)) hr

theorem letGo_addHandles_addHandles {ids : List NodeId} (others : List NodeId)
    (hr : ∀ id ∈ ids, h.isReferenced id = true) :
    ((h.addHandles ids).addHandles others).letGo (ids.map .reference) = h.addHandles others := by
  rw [addHandles_comm]
  exact letGo_addHandles fun id hm => isReferenced_addHandles others h (hr id hm)

theorem Reachable.isReferenced (hr : h.Reachable held) (hl : h.isLive id = true) :
    h.isReferenced id = true := isReferenced_iff.mpr (hr.sound.counted.referenced hl)

end Heap

end ScriptCore
