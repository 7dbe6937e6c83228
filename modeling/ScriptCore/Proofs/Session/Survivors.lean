import ScriptCore.Proofs.Agreement.WholeSteps
import ScriptCore.Proofs.Heap.Repeated

/-!
# Survivors in the books

A collection writes the number of nodes that it keeps into its books before it lets go of what was in
the garbage. A node that it keeps may die of that: it **hangs on garbage** (`Heap.HangsOnGarbage`) if
there is no handle on it and only garbage refers to it. Then the garbage refers to it in a way that a
collection does not follow (`HangsOnGarbage.exists_hides`), since it would not be kept otherwise.

If no node hangs on garbage, every node that is kept has a handle or is stored in another that is kept,
and this keeps all of them alive while the contents of the garbage go (`isLive_of_kept`). So the number
in the books is the number of live nodes afterwards exactly if no node hangs on garbage
(`live_of_collect`).
-/

namespace ScriptCore

namespace Heap

variable {h k : Heap} {id b : NodeId} {held : List NodeId} {item : Pending}

/-- A node that a collection keeps, though there is no handle on it and only garbage refers to it. -/
structure HangsOnGarbage (h : Heap) (b : NodeId) : Prop where
  live : h.isLive b = true
  needed : h.Needed b
  unheld : h.handles b = 0
  garbage : ∀ a, h.Stores a b → ¬ h.Needed a

/-- **What hangs on garbage is hidden in it**, unless it is being changed. -/
theorem HangsOnGarbage.exists_hides (hb : h.HangsOnGarbage b) :
    b ∈ h.borrowed ∨ ∃ a, ¬ h.Needed a ∧ h.Hides a b := by
  obtain ⟨root, hroot, hp⟩ := hb.needed
  rcases Relation.ReflTransGen.cases_tail hp with rfl | ⟨a, hpath, hab⟩
  · rcases hroot with hm | hheld | ⟨src, node, hn, hm | ⟨hborrowed, hm⟩⟩
    · exact Or.inl hm
    · exact absurd hb.unheld (Nat.ne_of_gt hheld)
    · exact Or.inr ⟨src, hb.garbage src ⟨node, hn, List.mem_append_right _ hm⟩, node, hn, hm⟩
    · exact absurd ⟨src, Or.inl hborrowed, .refl⟩
        (hb.garbage src ⟨node, hn, List.mem_append_left _ hm⟩)
  · exact absurd ⟨root, hroot, hpath⟩ (hb.garbage a (stores_of_follows hab))

/-! ## While the garbage goes -/

/-- Whatever item goes, a node that is held otherwise or is stored stays. -/
theorem Counted.isLive_letGoOne (hc : h.Counted (item.references ++ held))
    (hb : b ∈ held ∨ ∃ a, h.Stores a b) (hl : h.isLive b = true) :
    (h.letGoOne (fun h => (h, 0)) item).2.isLive b = true := by
  obtain ⟨hk, hs⟩ := hc.letGoOne (fun h => (h, 0)) fun hd => ⟨hd, Shrinks.refl h⟩
  rcases hb with hm | ⟨a, hab⟩
  · exact hk.isLive (List.mem_append_right _ hm)
  cases item with
  | payload p =>
    cases p with
    | integer n | text s | value v => exact hl
    | watch name collects => cases collects <;> exact hl
  | reference id =>
    obtain ⟨node, hn, hm⟩ := hab
    have hnode := node?_removeHandle h id
    rw [Heap.letGoOne]
    by_cases hr : (h.removeHandle id).isReferenced id = true
    · simp only [hr, if_true]
      rwa [isLive_congr (hnode b)]
    · -- Nothing stores the node that dies, so it is another one.
      have hne : b ≠ id := by
        rintro rfl
        refine hr (isReferenced_iff.mpr (Nat.add_pos_right _ ?_))
        exact storedCount_pos_iff.mpr ⟨a, node, (hnode a).trans hn, hm⟩
      simp only [hr, Bool.false_eq_true, if_false, hnode]
      split
      · have hsame : ((h.removeHandle id).free id).node? b = h.node? b := by
          rw [node?_free, if_neg hne, hnode]
        exact (isLive_congr ((node?_addHandles _ b _).trans hsame)).trans hl
      · rwa [isLive_congr (hnode b)]

/-- Every node of a set has a handle, or is stored in a node of the set. -/
def KeptUp (h : Heap) (kept : NodeId → Prop) (held : List NodeId) : Prop :=
  ∀ b, kept b → h.isLive b = true ∧ (b ∈ held ∨ ∃ a, kept a ∧ h.Stores a b)

/-- **A set of nodes that keep one another alive stays**, whatever else is let go. -/
theorem KeptUp.settleQuietly {kept : NodeId → Prop} {items : List Pending}
    (hc : h.Counted (items.flatMap Pending.references ++ held)) (hkept : h.KeptUp kept held) :
    ∀ b, kept b → (h.settleQuietly items).isLive b = true := by
  refine (settle_induction (fun h => (h, 0))
    (P := fun k items => k.Counted (items.flatMap Pending.references ++ held) ∧
      Shrinks h k ∧ ∀ b, kept b → k.isLive b = true)
    ?_ (fun k _ _ _ => Shrinks.refl k) _ items h le_rfl
    ⟨hc, Shrinks.refl h, fun b hb => (hkept b hb).1⟩).2.2
  rintro k item rest ⟨hk, hs, hlive⟩
  rw [List.flatMap_cons, List.append_assoc] at hk
  obtain ⟨hk', hs'⟩ := hk.letGoOne (fun h => (h, 0)) fun hd => ⟨hd, Shrinks.refl k⟩
  refine ⟨?_, hs.trans hs', fun b hb => hk.isLive_letGoOne ?_ (hlive b hb)⟩
  · rw [List.flatMap_append, List.append_assoc]
    exact hk'
  · -- The nodes of the set are still what they were.
    refine (hkept b hb).2.imp (List.mem_append_right _) ?_
    rintro ⟨a, ha, node, hn, hm⟩
    exact ⟨a, node, (hs.node?_eq (hlive a ha)).trans hn, hm⟩

/-! ## A whole collection -/

variable (hr : h.Reachable held)

include hr

theorem live_collect : h.collect.1.collector.stats.live = h.sift.1.length := by
  have hb := hr.sound.booked
  obtain ⟨-, -, hbooks⟩ := (hr.sound.counted.sweep (nodup_sift hb).2 h.sift.1).settleQuietly
  rw [collect_eq hb.idle, endCollection, hbooks]
  rfl

theorem isLive_of_collect_iff : h.collect.1.isLive id = true ↔
    id ∈ h.sift.1 ∧ h.collect.1.isLive id = true := by
  obtain ⟨-, -, hk, hdead⟩ := collect_spec hr.sound.counted hr.sound.booked
  refine ⟨fun hl => ⟨?_, hl⟩, And.right⟩
  refine (mem_sift_fst_iff hr.sound.booked).mpr ⟨hk.isLive hl, ?_⟩
  by_contra hnot
  rw [hdead id ((mem_sift_snd_iff hr.sound.booked).mpr ⟨hk.isLive hl, hnot⟩)] at hl
  cases hl

theorem live_collect_eq_add : h.collect.1.collector.stats.live =
    h.collect.1.liveCells.length + (h.sift.1.filter fun id => !h.collect.1.isLive id).length := by
  have hlive : h.collect.1.liveCells.length = (h.sift.1.filter h.collect.1.isLive).length := by
    rw [length_liveCells, ← List.toFinset_card_of_nodup ((nodup_sift hr.sound.booked).1.filter _)]
    congr 1
    ext id
    rw [Finset.mem_filter, Finset.mem_range, List.mem_toFinset, List.mem_filter,
      ← isLive_of_collect_iff hr]
    exact ⟨And.right, fun hl => ⟨lt_size_of_isLive hl, hl⟩⟩
  rw [live_collect hr, hlive]
  exact List.length_eq_length_filter_add _

/-- **What hangs on garbage dies** in the collection. -/
theorem HangsOnGarbage.dies (hb : h.HangsOnGarbage b) : h.collect.1.isLive b = false := by
  obtain ⟨hk, -, hs, hdead⟩ := collect_spec hr.sound.counted hr.sound.booked
  by_contra hl
  have hz : h.collect.1.handles b = 0 := by
    rw [hk.handles_eq, ← hr.sound.counted.handles_eq, hb.unheld]
  obtain ⟨a, node, hn, hm⟩ := hk.exists_stored (by simpa using hl) hz
  have hgarbage : a ∈ h.sift.2 := (mem_sift_snd_iff hr.sound.booked).mpr
    ⟨hs.isLive (isLive_of_node? hn), hb.garbage a ⟨node, hs.nodes hn, hm⟩⟩
  exact absurd (isLive_of_node? hn) (by simp [hdead a hgarbage])

/-- **Where nothing hangs on garbage, everything that is kept stays.** -/
theorem isLive_of_kept (hnone : ∀ b, ¬ h.HangsOnGarbage b) (hm : id ∈ h.sift.1) :
    h.collect.1.isLive id = true := by
  have hb := hr.sound.booked
  have hc := hr.sound.counted.sweep (nodup_sift hb).2 h.sift.1
  have hsame {x : NodeId} (hx : h.Needed x) :
      (h.sweep h.sift.1 h.sift.2).node? x = h.node? x := by
    rw [node?_sweep, if_neg fun hs => ((mem_sift_snd_iff hb).mp hs).2 hx]
  have hkept : (h.sweep h.sift.1 h.sift.2).KeptUp (fun x => h.isLive x = true ∧ h.Needed x)
      (h.permanent ++ held) := by
    rintro x ⟨hl, hx⟩
    refine ⟨(isLive_sweep h _ _ x).trans hl, ?_⟩
    by_contra hno
    refine hnone x ⟨hl, hx, ?_, fun a hab ha => hno (Or.inr ?_)⟩
    · by_contra hne
      rw [hr.sound.counted.handles_eq] at hne
      exact hno (Or.inl (List.count_pos_iff.mp (Nat.pos_of_ne_zero hne)))
    · obtain ⟨node, hn, hstored⟩ := hab
      exact ⟨a, ⟨isLive_of_node? hn, ha⟩, node, (hsame ha).trans hn, hstored⟩
  rw [collect_eq hb.idle]
  exact hkept.settleQuietly hc id ((mem_sift_fst_iff hb).mp hm)

/-- **The number of survivors in the books.** A collection counts what it keeps: the nodes that are
alive afterwards, and those that have died all the same when the contents of the garbage were let go.
There are none of these exactly if no node hangs on garbage, and such a node is hidden in the garbage or
being changed. -/
theorem live_of_collect :
    h.collect.1.collector.stats.live = h.collect.1.liveCells.length +
        (h.sift.1.filter fun id => !h.collect.1.isLive id).length ∧
      (h.collect.1.collector.stats.live = h.collect.1.liveCells.length ↔
        ∀ b, ¬ h.HangsOnGarbage b) ∧
      ∀ b, h.HangsOnGarbage b → b ∈ h.borrowed ∨ ∃ a, ¬ h.Needed a ∧ h.Hides a b := by
  have hsum := live_collect_eq_add hr
  refine ⟨hsum, ⟨fun he b hb => ?_, fun hnone => ?_⟩, fun b hb => hb.exists_hides⟩
  · have hm : b ∈ h.sift.1.filter fun id => !h.collect.1.isLive id :=
      List.mem_filter.mpr ⟨(mem_sift_fst_iff hr.sound.booked).mpr ⟨hb.live, hb.needed⟩, by
        rw [hb.dies hr]
        rfl⟩
    have := List.length_pos_of_mem hm
    omega
  · rw [hsum, List.filter_eq_nil_iff.mpr, List.length_nil, Nat.add_zero]
    intro id hm
    rw [isLive_of_kept hr hnone hm]
    exact Bool.false_ne_true

omit hr

/-- An object is made that refers to itself, and has another one in its payload. Then both are let go.
-/
def stepsOfPayloadOnCycle : List Step :=
  [⟨.store (.keep (.object [])), some "inner", none⟩,
    ⟨.store (.keep (.object [])), some "outer", none⟩,
    ⟨.object (.assign (.register "outer") (.register "outer") "self"), none, none⟩,
    ⟨.object (.setPayload (.register "outer") (.value (.register "inner"))), none, none⟩,
    ⟨.store (.dropRegister "inner"), none, none⟩,
    ⟨.store (.dropRegister "outer"), none, none⟩]

def payloadOnCycle : Heap := (Session.initial.run stepsOfPayloadOnCycle).2.heap

theorem reachable_payloadOnCycle : payloadOnCycle.Reachable [] := by
  have hlinks : (Session.initial.run stepsOfPayloadOnCycle).2.links = [] := by decide +kernel
  have hreachable := Session.reachable_run stepsOfPayloadOnCycle
  rwa [hlinks] at hreachable

/-- The collection keeps the object in the payload and counts it as alive. It dies with the payload. -/
theorem live_collect_payloadOnCycle :
    payloadOnCycle.Reachable [] ∧ payloadOnCycle.collector.collecting = false ∧
      payloadOnCycle.collect.1.collector.stats.live = 5 ∧
      payloadOnCycle.collect.1.liveCells.length = 4 ∧
      payloadOnCycle.collect.1.collector.stats.live ≠ payloadOnCycle.collect.1.liveCells.length :=
  ⟨reachable_payloadOnCycle, by decide +kernel, by decide +kernel, by decide +kernel,
    by decide +kernel⟩

/-- Nothing hangs on an object that refers to nothing but itself, so the number is right when it has
been collected. On the heap before, something does hang on garbage. -/
theorem live_of_collect_onCycles :
    (orphanCycle.Reachable [] ∧ orphanCycle.collect.1.collector.stats.live =
        orphanCycle.collect.1.liveCells.length) ∧
      payloadOnCycle.Reachable [] ∧ ∃ b, payloadOnCycle.HangsOnGarbage b := by
  refine ⟨⟨reachable_orphanCycle, (live_of_collect reachable_orphanCycle).2.1.mpr fun b hb => ?_⟩,
    reachable_payloadOnCycle, ?_⟩
  · rcases (live_of_collect reachable_orphanCycle).2.2 b hb with hm | ⟨a, -, node, hn, hm⟩
    · exact absurd hm List.not_mem_nil
    · have ha : a < orphanCycle.cells.size := lt_size_of_node? hn
      obtain rfl : a = 0 := Nat.lt_one_iff.mp ha
      obtain rfl := Option.some.inj hn
      exact absurd hm List.not_mem_nil
  · by_contra hnone
    have heq := (live_of_collect reachable_payloadOnCycle).2.1.mpr fun b hb => hnone ⟨b, hb⟩
    exact absurd heq (by decide +kernel)

end Heap

end ScriptCore
