import ScriptCore.Proofs.Agreement.WholeSteps

/-!
# Subtractions in a collection

While a collection is on, it has a handle of its own on every node that it knows (`Heap.duringPass`).
It begins with the strong counts less those handles, and takes one off for every edge that it follows
(`Heap.countsAfter`). A natural number that is zero hides a subtraction, so it has to be shown that
there is none of that kind.

Every edge is a stored reference, and is followed once (`Heap.storedCount_eq_add`). So a node is not
come upon more often than it is stored (`Heap.visits_le_storedCount`), and a count is positive whenever
one is taken off it (`Heap.countsAfter_pos`). What is left of a count are the references held from
outside and the stored ones that are not followed. A node that is being changed is a root, hence
marked, and so the marks alone tell what a collection keeps (`Heap.sift_eq_partition`).
`Heap.trialDeletion_exact` puts this together.
-/

namespace ScriptCore

namespace Heap

variable {h : Heap} {id : NodeId} {held : List NodeId}

/-- A heap while a collection is on: there is one more handle on every node that it knows. -/
def duringPass (h : Heap) : Heap := h.addHandles h.registered

def visits (h : Heap) (id : NodeId) : Nat := (h.registered.flatMap h.edges).count id

/-- The counts when one has been taken off for every node in a list, beginning with the strong counts.
-/
def countsAfter (h : Heap) (ids : List NodeId) : Array Nat :=
  ids.foldl (fun counts id => counts.modify id (· - 1)) h.strongCounts

/-! ## Counts -/

theorem countsAfter_getElem? (ids : List NodeId) (hlt : id < h.cells.size) :
    (h.countsAfter ids)[id]? = some (h.strongCount id - ids.count id) := by
  rw [countsAfter, getElem?_foldl_decrement, strongCounts_getElem? hlt, Option.map_some]

/-- A collection adds one to the strong count of every live node, since it knows each of them, and
none twice. -/
theorem strongCount_duringPass (hb : h.Booked) (hl : h.isLive id = true) :
    h.duringPass.strongCount id = h.strongCount id + 1 := by
  have hone : h.registered.count id = 1 :=
    List.count_eq_one_of_mem (nodup_registered hb) ((mem_registered_iff hb).mpr hl)
  have hstored : h.duringPass.storedCount id = h.storedCount id :=
    storedCount_addHandles h _ id
  have hhandles : h.duringPass.handles id = h.handles id + h.registered.count id :=
    handles_addHandles _ id h fun x hx => (mem_registered_iff hb).mp hx
  rw [strongCount, strongCount, hstored, hhandles, hone]
  omega

/-- **A node is not come upon more often than it is stored.** -/
theorem visits_le_storedCount (hb : h.Booked) (id : NodeId) : h.visits id ≤ h.storedCount id := by
  rw [storedCount_eq_add (nodup_registered hb) fun x => mem_registered_iff hb]
  exact Nat.le_add_right _ _

theorem Counted.isLive_of_follows {src : NodeId} (hc : h.Counted held) (hf : h.Follows src id) :
    h.isLive id = true := by
  obtain ⟨node, hn⟩ := isLive_iff_node?.mp (isLive_of_edges_ne_nil (List.ne_nil_of_mem hf))
  rw [Follows, edges_of_node? hn] at hf
  split at hf
  · exact absurd hf List.not_mem_nil
  · exact hc.stored_live hn id (List.mem_append_left _ hf)

/-- **No subtraction is from zero**: some edges have been followed, and the next leads to a live node
whose count is positive. -/
theorem countsAfter_pos (hc : h.Counted held) (hb : h.Booked) {before after : List NodeId}
    (heq : h.registered.flatMap h.edges = before ++ id :: after) :
    h.isLive id = true ∧ 0 < (h.countsAfter before)[id]?.getD 0 := by
  have hm : id ∈ h.registered.flatMap h.edges := heq ▸ List.mem_append_right _ (List.mem_cons_self ..)
  obtain ⟨src, _, hf⟩ := List.mem_flatMap.mp hm
  have hl : h.isLive id = true := hc.isLive_of_follows hf
  have hvisits : h.visits id = before.count id + (after.count id + 1) := by
    rw [visits, heq, List.count_append, List.count_cons_self]
  have hle := visits_le_storedCount hb id
  refine ⟨hl, ?_⟩
  rw [countsAfter_getElem? before (lt_size_of_isLive hl), Option.getD_some, strongCount]
  omega

/-! ## Marks -/

/-- **The marks tell what is kept**: to be in the course of being changed adds nothing to them. -/
theorem sift_eq_partition (hb : h.Booked) :
    h.sift = h.registered.partition (isMarked (h.marks h.registered)) := by
  have hkept (id : NodeId) (hm : id ∈ h.registered) :
      h.isKept (h.marks h.registered) id = isMarked (h.marks h.registered) id :=
    isKept_eq_isMarked hb ((mem_registered_iff hb).mp hm)
  rw [sift, List.partition_eq_filter_filter, List.partition_eq_filter_filter]
  congr 1
  · exact List.filter_congr hkept
  · exact List.filter_congr fun id hm => congrArg not (hkept id hm)

/-! ## A whole pass -/

/-- **The subtractions of a collection are exact**, on every heap that the machine can come to,
whatever is being changed there.

The counts begin with the strong counts less the collection's own handles. A live node is come upon at
most as often as that, and what is left of its count is the number of strong references to it that are
not stored in a node that is traced: those held from outside, and those stored in a payload, in a
closure or in a node that is being changed. At no point is anything taken off a count that is zero.

A live node without a mark is not being changed. It is not in use either by anyone who has come to it
from a handle, or from another reference that is not followed. What a collection keeps is what is
marked. -/
theorem trialDeletion_exact (hr : h.Reachable held) :
    (∀ id, h.isLive id = true →
      h.strongCounts[id]? = some (h.duringPass.strongCount id - 1) ∧
        h.visits id + 1 ≤ h.duringPass.strongCount id ∧
        (h.externalCounts h.registered)[id]? =
          some ((h.permanent ++ held).count id + h.untracedCount id)) ∧
      h.externalCounts h.registered = h.countsAfter (h.registered.flatMap h.edges) ∧
      (∀ before id after, h.registered.flatMap h.edges = before ++ id :: after →
        h.isLive id = true ∧ 0 < (h.countsAfter before)[id]?.getD 0) ∧
      (∀ id, h.isLive id = true → isMarked (h.marks h.registered) id = false →
        id ∉ h.borrowed ∧ ¬ h.Needed id) ∧
      h.sift = h.registered.partition (isMarked (h.marks h.registered)) := by
  have hc := hr.sound.counted
  have hb := hr.sound.booked
  refine ⟨fun id hl => ⟨?_, ?_, ?_⟩, rfl, fun before id after heq => countsAfter_pos hc hb heq,
    fun id hl hm => ?_, sift_eq_partition hb⟩
  · rw [strongCounts_getElem? (lt_size_of_isLive hl), strongCount_duringPass hb hl,
      Nat.add_sub_cancel]
  · rw [strongCount_duringPass hb hl, strongCount]
    have := visits_le_storedCount hb id
    omega
  · rw [externalCounts_getElem? (nodup_registered hb) (fun x => mem_registered_iff hb)
      (lt_size_of_isLive hl), hc.handles_eq]
  · have hneed : ¬ h.Needed id := fun hneed =>
      absurd ((isMarked_iff_needed hb hl).mpr hneed) (by simp [hm])
    exact ⟨fun hbor => hneed ⟨id, Or.inl hbor, .refl⟩, hneed⟩

/-- An object that refers to itself is stored twice in an array and once in the payload of another
object of that kind. Of the three only the array is held. -/
def stepsOfShared : List Step :=
  [⟨.store (.keep (.object [])), some "shared", none⟩,
    ⟨.object (.assign (.register "shared") (.register "shared") "self"), none, none⟩,
    ⟨.store (.keep (.object [])), some "ring", none⟩,
    ⟨.object (.assign (.register "ring") (.register "ring") "self"), none, none⟩,
    ⟨.object (.setPayload (.register "ring") (.value (.register "shared"))), none, none⟩,
    ⟨.store (.keep (.array [.register "shared", .register "shared"])), some "list", none⟩,
    ⟨.store (.dropRegister "shared"), none, none⟩,
    ⟨.store (.dropRegister "ring"), none, none⟩]

def sharedInChange : Heap := { (Session.initial.run stepsOfShared).2.heap with borrowed := [6] }

theorem reachable_sharedInChange : sharedInChange.Reachable [6] := by
  have hlinks : (Session.initial.run stepsOfShared).2.links.map Link.target = [6] := by
    decide +kernel
  have hreachable := Session.reachable_run stepsOfShared
  rw [hlinks] at hreachable
  exact hreachable.borrow [6]

/-- The object is come upon once, from itself, and its count is positive then. The count was four, of
which three are left: two for the array and one for the payload. The other object has no mark, and is
all the garbage. -/
theorem trialDeletion_exact_sharedInChange :
    sharedInChange.Reachable [6] ∧ sharedInChange.isLive 4 = true ∧
      sharedInChange.visits 4 = 1 ∧ sharedInChange.duringPass.strongCount 4 = 5 ∧
      0 < (sharedInChange.countsAfter [0, 0, 0, 0])[4]?.getD 0 ∧
      sharedInChange.untracedCount 4 = 3 ∧
      (sharedInChange.externalCounts sharedInChange.registered)[4]? = some 3 ∧
      5 ∉ sharedInChange.borrowed ∧ sharedInChange.sift = ([0, 1, 2, 3, 4, 6], [5]) := by
  obtain ⟨hcounts, -, hsteps, hunmarked, -⟩ := trialDeletion_exact reachable_sharedInChange
  have hlive : sharedInChange.isLive 4 = true := by decide +kernel
  have hedges : sharedInChange.registered.flatMap sharedInChange.edges =
      [0, 0, 0, 0] ++ 4 :: [0, 5] := by decide +kernel
  have huntraced : sharedInChange.untracedCount 4 = 3 := by decide +kernel
  have hpermanent : (sharedInChange.permanent ++ [6]).count 4 = 0 := by decide +kernel
  have hleft := (hcounts 4 hlive).2.2
  rw [hpermanent, huntraced] at hleft
  exact ⟨reachable_sharedInChange, hlive, by decide +kernel, by decide +kernel,
    (hsteps [0, 0, 0, 0] 4 [0, 5] hedges).2, huntraced, hleft,
    (hunmarked 5 (by decide +kernel) (by decide +kernel)).1, by decide +kernel⟩

end Heap

end ScriptCore
