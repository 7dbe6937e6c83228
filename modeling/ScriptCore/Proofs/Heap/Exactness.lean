import ScriptCore.Proofs.Heap.Reachable

/-!
# Exactness of collections

A collection that starts on a reachable heap, with any nodes being changed, empties the nodes that
it need not keep, and no others (`collect_exact`). When it is over they are dead, every node that is
alive is what it was, and of what can be reached from a handle nothing has died.
-/

namespace ScriptCore

namespace Heap

variable {h k : Heap} {id : NodeId} {held : List NodeId}

/-- A strong reference to a node is stored in another one, whether a collection follows it or not. -/
def Stores (h : Heap) (a b : NodeId) : Prop := ∃ node, h.node? a = some node ∧ b ∈ node.references

theorem Shrinks.node?_eq_of_stores (hk : Shrinks h k) (hc : k.Counted held) {root : NodeId}
    (hr : k.isLive root = true) (hp : Relation.ReflTransGen h.Stores root id) :
    k.node? id = h.node? id := by
  induction hp with
  | refl => exact hk.node?_eq hr
  | @tail a b _ hab ih =>
    obtain ⟨node, hn, hm⟩ := hab
    exact hk.node?_eq (hc.stored_live (ih.trans hn) b hm)

/-- **A collection is exact.** -/
theorem collect_exact (hr : h.Reachable held) :
    (∀ id, id ∈ h.sift.2 ↔ h.isLive id = true ∧ ¬ h.Needed id) ∧
      (∀ id, (h.sweep h.sift.1 h.sift.2).node? id =
        if id ∈ h.sift.2 then (h.node? id).map Node.emptied else h.node? id) ∧
      h.sift.2.Nodup ∧ h.collect.2 = h.sift.2.length ∧
      (∀ id ∈ h.sift.2, h.collect.1.isLive id = false) ∧
      (∀ id node, h.collect.1.node? id = some node → h.node? id = some node) ∧
      ∀ root id, 0 < h.handles root → Relation.ReflTransGen h.Stores root id →
        h.collect.1.node? id = h.node? id := by
  have hs := hr.sound
  obtain ⟨hc, _, hk, hdead⟩ := collect_spec hs.counted hs.booked
  refine ⟨fun id => mem_sift_snd_iff hs.booked, node?_sweep h _ _, (nodup_sift hs.booked).2, ?_,
    hdead, fun id node hn => hk.nodes hn, fun root id hp hpath => ?_⟩
  · rw [collect_eq hs.booked.idle]
  · refine hk.node?_eq_of_stores hc (isLive_of_handles_pos ?_) hpath
    rwa [hc.handles_eq, ← hs.counted.handles_eq]

def orphanCycle : Heap :=
  let object := Object.plain "Object" none
  let made := (initial.push (.object object)).enter 0
  (made.setObject 0 { object with fields := ⟨[("self", .object 0)], by simp⟩ }).removeHandle 0

theorem reachable_orphanCycle : orphanCycle.Reachable [] := by
  let object := Object.plain "Object" none
  have hmade : ((initial.push (.object object)).enter 0).Reachable [0] :=
    Reachable.initial.enter fun l hl => absurd hl List.not_mem_nil
  have hlinked : (((initial.push (.object object)).enter 0).setObject 0
      { object with fields := ⟨[("self", .object 0)], by simp⟩ }).Reachable [0] := by
    refine hmade.write rfl rfl (fun l hl => ?_) (fun x hx => absurd hx List.not_mem_nil)
      (by simp [Node.prototype?, object, Object.plain])
    obtain rfl : l = .object 0 := List.mem_singleton.mp hl
    exact ⟨object, rfl⟩
  refine (hlinked.handOver [0] fun x hx => Or.inl (storedCount_pos_iff.mpr ⟨0, _, rfl, ?_⟩)).1
  rw [List.mem_singleton.mp hx]
  exact List.mem_singleton.mpr rfl

theorem collect_exact_orphanCycle : orphanCycle.Reachable [] ∧ orphanCycle.sift.2 = [0] ∧
    orphanCycle.collect.2 = 1 ∧ orphanCycle.collect.1.isLive 0 = false := by
  have hexact := collect_exact reachable_orphanCycle
  have hgarbage : orphanCycle.sift.2 = [0] := by decide +kernel
  refine ⟨reachable_orphanCycle, hgarbage, ?_, hexact.2.2.2.2.1 0 (by simp [hgarbage])⟩
  rw [hexact.2.2.2.1, hgarbage]
  rfl

end Heap

end ScriptCore
