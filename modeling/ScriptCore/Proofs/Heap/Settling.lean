import ScriptCore.Proofs.Heap.Counting

/-!
# Settling

Letting go of pending items one after another comes to an end before its bound is used up, so what
holds of a heap with items pending, and is kept by each item that goes, holds of the heap when
nothing is pending any more: `settle_induction`. Within a collection, where no other can start, that
is all there is: `Counted.settleQuietly`.
-/

namespace ScriptCore

namespace Heap

variable {h k : Heap} {held : List NodeId} {onDemand : Heap → Heap × Nat}

/-! ## One item -/

theorem Counted.report (hc : h.Counted held) (r : Release) : (h.report r).Counted held :=
  ⟨hc.handles_eq, hc.stored_live, hc.referenced⟩

theorem Shrinks.report (hk : Shrinks h k) (r : Release) : Shrinks h (k.report r) :=
  ⟨⟨hk.size, hk.realm, hk.borrowed, hk.displayDepth, hk.places⟩, hk.nodes⟩

/-- Letting one item go keeps the counts right, with what it still has to let go of held, provided
that the collection it may ask for does. -/
theorem Counted.letGoOne (onDemand : Heap → Heap × Nat) {item : Pending}
    (hc : h.Counted (item.references ++ held))
    (hdemand : h.Counted held → (onDemand h).1.Counted held ∧ Shrinks h (onDemand h).1) :
    (h.letGoOne onDemand item).2.Counted
        ((h.letGoOne onDemand item).1.flatMap Pending.references ++ held) ∧
      Shrinks h (h.letGoOne onDemand item).2 := by
  cases item with
  | reference id =>
    have hc : h.Counted (id :: held) := hc
    rw [Heap.letGoOne]
    by_cases hr : (h.removeHandle id).isReferenced id = true
    · simp only [hr, if_true]
      exact ⟨hc.removeHandle hr, shrinks_removeHandle h id⟩
    · obtain ⟨node, hn⟩ := isLive_iff_node?.mp (hc.isLive (List.mem_cons_self ..))
      simp only [hr, if_false, Bool.false_eq_true, node?_removeHandle, hn]
      exact ⟨hc.free hr hn, ((shrinks_removeHandle h id).trans (shrinks_free _ id)).trans
        (shrinks_addHandles _ _)⟩
  | payload p =>
    cases p with
    | integer n => exact ⟨hc, Shrinks.refl h⟩
    | text s => exact ⟨hc, Shrinks.refl h⟩
    | value v =>
      rw [Heap.letGoOne]
      refine ⟨?_, Shrinks.refl h⟩
      rw [Pending.references_ofValue]
      exact hc
    | watch name collects =>
      have hc : h.Counted held := hc
      cases collects with
      | false => exact ⟨hc.report _, (Shrinks.refl h).report _⟩
      | true =>
        obtain ⟨hd, hs⟩ := hdemand hc
        exact ⟨hd.report _, hs.report _⟩

theorem collector_letGoOne_reference (onDemand : Heap → Heap × Nat) (h : Heap) (id : NodeId) :
    (h.letGoOne onDemand (.reference id)).2.collector = h.collector := by
  simp only [letGoOne]
  split
  · exact collector_removeHandle h id
  · split
    · exact (collector_addHandles _ _).trans (collector_removeHandle h id)
    · exact collector_removeHandle h id

theorem collector_letGoOne (h : Heap) (item : Pending) :
    (h.letGoOne (fun h => (h, 0)) item).2.collector = h.collector := by
  cases item with
  | reference id => exact collector_letGoOne_reference _ h id
  | payload p =>
    cases p with
    | integer n => rfl
    | text s => rfl
    | value v => rfl
    | watch name collects => cases collects <;> rfl

/-! ## The bound -/

theorem totalWeight_ofValue_le (v : Value) : Pending.totalWeight (Pending.ofValue v) ≤ 1 := by
  rw [Pending.ofValue, Pending.totalWeight_references]
  exact v.length_references_le

/-- **The bound falls** with every item that goes. -/
theorem releaseBound_letGoOne (item : Pending) (rest : List Pending)
    (hdemand : Shrinks h (onDemand h).1) :
    (h.letGoOne onDemand item).2.releaseBound ((h.letGoOne onDemand item).1 ++ rest) <
      h.releaseBound (item :: rest) := by
  simp only [releaseBound, Pending.totalWeight_append, Pending.totalWeight_cons]
  cases item with
  | reference id =>
    have hsame := (shrinks_removeHandle h id).total_le Node.releaseWeight
    simp only [letGoOne, Pending.weight]
    split
    · simp only [Pending.totalWeight_nil]
      omega
    · split
      · next node hn =>
        have hfree := total_free Node.releaseWeight hn
        have hhold := (shrinks_addHandles ((h.removeHandle id).free id)
          (node.contents.flatMap Pending.references)).total_le Node.releaseWeight
        have hweight := node.totalWeight_contents_le
        simp only [holdPending]
        omega
      · simp only [Pending.totalWeight_nil]
        omega
  | payload p =>
    cases p with
    | integer n => simp [letGoOne, Pending.weight]
    | text s => simp [letGoOne, Pending.weight]
    | value v =>
      have := totalWeight_ofValue_le v
      simp only [letGoOne, Pending.weight]
      omega
    | watch name collects =>
      have := hdemand.total_le Node.releaseWeight
      cases collects with
      | false => simp [letGoOne, Pending.weight, report, total, liveCells]
      | true =>
        simp only [letGoOne, Pending.weight, Pending.totalWeight_nil]
        exact lt_of_le_of_lt (Nat.add_le_add_left this _) (by omega)

/-! ## All items -/

theorem settle_succ (fuel : Nat) (item : Pending) (rest : List Pending) (h : Heap) :
    settle onDemand (fuel + 1) (item :: rest) h =
      settle onDemand fuel ((h.letGoOne onDemand item).1 ++ rest) (h.letGoOne onDemand item).2 :=
  rfl

/-- **What every item keeps, settling keeps**: it comes to an end with nothing pending. -/
theorem settle_induction (onDemand : Heap → Heap × Nat) {P : Heap → List Pending → Prop}
    (hstep : ∀ h item rest, P h (item :: rest) →
      P (h.letGoOne onDemand item).2 ((h.letGoOne onDemand item).1 ++ rest))
    (hdemand : ∀ h item rest, P h (item :: rest) → Shrinks h (onDemand h).1) :
    ∀ (fuel : Nat) (items : List Pending) (h : Heap), h.releaseBound items ≤ fuel →
      P h items → P (settle onDemand fuel items h) [] := by
  intro fuel
  induction fuel with
  | zero =>
    intro items h hb hi
    cases items with
    | nil => exact hi
    | cons item rest =>
      have := releaseBound_letGoOne item rest (hdemand h item rest hi)
      omega
  | succ fuel ih =>
    intro items h hb hi
    cases items with
    | nil => exact hi
    | cons item rest =>
      have := releaseBound_letGoOne item rest (hdemand h item rest hi)
      rw [settle_succ]
      exact ih _ _ (by omega) (hstep h item rest hi)

theorem Counted.settleQuietly {items : List Pending}
    (hc : h.Counted (items.flatMap Pending.references ++ held)) :
    (h.settleQuietly items).Counted held ∧ Shrinks h (h.settleQuietly items) ∧
      (h.settleQuietly items).collector = h.collector := by
  refine settle_induction (fun h => (h, 0))
    (P := fun k items => k.Counted (items.flatMap Pending.references ++ held) ∧
      Shrinks h k ∧ k.collector = h.collector)
    ?_ (fun k _ _ _ => Shrinks.refl k) _ items h le_rfl ⟨hc, Shrinks.refl h, rfl⟩
  rintro k item rest ⟨hk, hs, hb⟩
  rw [List.flatMap_cons, List.append_assoc] at hk
  obtain ⟨hk', hs'⟩ := hk.letGoOne (fun h => (h, 0)) fun hd => ⟨hd, Shrinks.refl k⟩
  rw [List.flatMap_append, List.append_assoc]
  exact ⟨hk', hs.trans hs', (collector_letGoOne k item).trans hb⟩

end Heap

end ScriptCore
