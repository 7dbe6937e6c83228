import ScriptCore.Proofs.Heap.Exactness

/-!
# Collecting again and again

References that a collection does not follow keep alive what a dying node holds, so that garbage may
take several passes to go. Each pass that finds garbage makes the heap smaller
(`length_liveCells_afterPasses`), and one that finds none changes no node (`node?_collect_of_empty`).
So the passes run dry. What is left then can be reached from the roots of the heap, unless a
reference that is not followed lies on a cycle (`reachedFrom_of_empty`), and where there are no such
references one pass is enough (`collect_of_plain`).
-/

namespace ScriptCore

namespace Heap

variable {h k : Heap} {id : NodeId} {held : List NodeId}

def afterPasses (h : Heap) : Nat → Heap
  | 0 => h
  | n + 1 => (h.afterPasses n).collect.1

theorem afterPasses_succ (h : Heap) (n : Nat) :
    h.afterPasses (n + 1) = h.collect.1.afterPasses n := by
  induction n with
  | zero => rfl
  | succ n ih => exact congrArg (fun g : Heap => g.collect.1) ih

/-- A node holds a reference to another that a collection does not follow. -/
def Hides (h : Heap) (a b : NodeId) : Prop :=
  ∃ node, h.node? a = some node ∧ b ∈ node.hiddenReferences

/-- A node can be reached, along references of any kind, from what the heap holds for good or what
is held from outside. -/
def ReachedFrom (h : Heap) (held : List NodeId) (id : NodeId) : Prop :=
  ∃ root ∈ h.permanent ++ held, Relation.ReflTransGen h.Stores root id

/-- No reference that a collection does not follow lies on a cycle. -/
def OpenHanded (h : Heap) : Prop := ∀ a b, h.Hides a b → ¬ Relation.ReflTransGen h.Stores b a

theorem Hides.stores {a b : NodeId} (hh : h.Hides a b) : h.Stores a b := by
  obtain ⟨node, hn, hm⟩ := hh
  exact ⟨node, hn, List.mem_append_right _ hm⟩

theorem stores_of_follows {a b : NodeId} (hf : h.Follows a b) : h.Stores a b := by
  rw [Follows, edges] at hf
  split at hf
  · exact absurd hf List.not_mem_nil
  · split at hf
    · next node hn => exact ⟨node, hn, List.mem_append_left _ hf⟩
    · exact absurd hf List.not_mem_nil

theorem path_of_follows {a b : NodeId} (hp : Relation.ReflTransGen h.Follows a b) :
    Relation.ReflTransGen h.Stores a b :=
  Relation.ReflTransGen.mono (fun _ _ => stores_of_follows) _ _ hp

/-! ## What survives is unchanged -/

theorem Shrinks.stores (hk : Shrinks h k) {a b : NodeId} (hs : k.Stores a b) : h.Stores a b := by
  obtain ⟨node, hn, hm⟩ := hs
  exact ⟨node, hk.nodes hn, hm⟩

theorem Shrinks.path (hk : Shrinks h k) {a b : NodeId} (hp : Relation.ReflTransGen k.Stores a b) :
    Relation.ReflTransGen h.Stores a b :=
  Relation.ReflTransGen.mono (fun _ _ => hk.stores) _ _ hp

theorem Shrinks.openHanded (hk : Shrinks h k) (hopen : h.OpenHanded) : k.OpenHanded := by
  rintro a b ⟨node, hn, hm⟩ hp
  exact hopen a b ⟨node, hk.nodes hn, hm⟩ (hk.path hp)

theorem Reachable.reachedFrom_of_shrinks (hk : Shrinks h k) (hr : k.Reachable held)
    (hf : h.ReachedFrom held id) : k.isLive id = true ∧ k.ReachedFrom held id := by
  obtain ⟨root, hroot, hp⟩ := hf
  rw [← permanent_congr hk.realm] at hroot
  have hc := hr.sound.counted
  have hstep : Relation.ReflTransGen k.Stores root id ∧ k.isLive id = true := by
    induction hp with
    | refl => exact ⟨.refl, hc.isLive hroot⟩
    | @tail a b _ hab ih =>
      obtain ⟨node, hn, hm⟩ := hab
      have hn : k.node? a = some node := (hk.node?_eq ih.2).trans hn
      exact ⟨ih.1.tail ⟨node, hn, hm⟩, hc.stored_live hn b hm⟩
  exact ⟨hstep.2, root, hroot, hstep.1⟩

theorem Reachable.isLive_of_reachedFrom (hr : h.Reachable held) (hf : h.ReachedFrom held id) :
    h.isLive id = true := (hr.reachedFrom_of_shrinks (Shrinks.refl h) hf).1

/-! ## A pass that finds garbage, and one that finds none -/

theorem length_liveCells (h : Heap) : h.liveCells.length =
    ((Finset.range h.cells.size).filter fun id => h.isLive id = true).card := by
  have hlength : h.liveCells.length = h.total fun _ => 1 := by simp [total_def]
  rw [hlength, total_eq_sum, Finset.card_filter]
  refine Finset.sum_congr rfl fun id _ => ?_
  cases hc : h.cell? id <;> simp [Heap.isLive, hc]

theorem Shrinks.length_liveCells_lt (hk : Shrinks h k) (hl : h.isLive id = true)
    (hd : k.isLive id = false) : k.liveCells.length < h.liveCells.length := by
  rw [length_liveCells, length_liveCells, hk.size]
  refine Finset.card_lt_card ((Finset.ssubset_iff_of_subset fun x hx => ?_).mpr ⟨id, ?_, ?_⟩)
  · exact Finset.mem_filter.mpr ((Finset.mem_filter.mp hx).imp_right hk.isLive)
  · exact Finset.mem_filter.mpr ⟨Finset.mem_range.mpr (lt_size_of_isLive hl), hl⟩
  · simp [hd]

theorem collect_snd (hr : h.Reachable held) : h.collect.2 = h.sift.2.length := by
  rw [collect_eq hr.sound.booked.idle]

/-- **A pass that finds garbage** leaves fewer nodes. -/
theorem length_liveCells_collect_lt (hr : h.Reachable held) (hne : h.collect.2 ≠ 0) :
    h.collect.1.liveCells.length < h.liveCells.length := by
  obtain ⟨_, _, hk, hdead⟩ := collect_spec hr.sound.counted hr.sound.booked
  rw [collect_snd hr] at hne
  obtain ⟨id, hm⟩ := List.exists_mem_of_length_pos (Nat.pos_of_ne_zero hne)
  exact hk.length_liveCells_lt ((mem_sift_snd_iff hr.sound.booked).mp hm).1 (hdead id hm)

theorem sift_snd_eq_nil (hr : h.Reachable held) (hz : h.collect.2 = 0) : h.sift.2 = [] :=
  List.eq_nil_of_length_eq_zero ((collect_snd hr).symm.trans hz)

/-- **A pass that finds no garbage** changes no node. -/
theorem node?_collect_of_empty (hr : h.Reachable held) (hz : h.collect.2 = 0) (id : NodeId) :
    h.collect.1.node? id = h.node? id := by
  have hsettle (g : Heap) : g.settleQuietly [] = g := by
    rw [settleQuietly]
    cases g.releaseBound [] <;> rfl
  rw [collect_eq hr.sound.booked.idle, sift_snd_eq_nil hr hz, List.flatMap_nil, hsettle]
  exact (node?_sweep h h.sift.1 [] id).trans (if_neg List.not_mem_nil)

theorem needed_of_empty (hr : h.Reachable held) (hz : h.collect.2 = 0) (hl : h.isLive id = true) :
    h.Needed id := by
  by_contra hnot
  have hm := (mem_sift_snd_iff hr.sound.booked).mpr ⟨hl, hnot⟩
  rw [sift_snd_eq_nil hr hz] at hm
  exact List.not_mem_nil hm

theorem collect_snd_eq_zero_iff (hr : h.Reachable held) :
    h.collect.2 = 0 ↔ ∀ id, h.isLive id = true → h.Needed id := by
  refine ⟨fun hz id => needed_of_empty hr hz, fun hall => ?_⟩
  rw [collect_snd hr, List.length_eq_zero_iff, List.eq_nil_iff_forall_not_mem]
  intro id hm
  obtain ⟨hl, hnot⟩ := (mem_sift_snd_iff hr.sound.booked).mp hm
  exact hnot (hall id hl)

/-! ## What has to be kept -/

theorem handles_pos_iff (hr : h.Reachable held) :
    0 < h.handles id ↔ id ∈ h.permanent ++ held := by
  rw [hr.sound.counted.handles_eq, List.count_pos_iff]

/-- While no node is being changed, a node has to be kept if it is reached from a root, or from what
a node hides. -/
theorem needed_iff (hr : h.Reachable held) (hb : h.borrowed = []) :
    h.Needed id ↔ ∃ root, (root ∈ h.permanent ++ held ∨ ∃ src, h.Hides src root) ∧
      Relation.ReflTransGen h.Follows root id := by
  refine exists_congr fun root => and_congr_left fun _ => ?_
  rw [External, hb, handles_pos_iff hr]
  constructor
  · rintro (hm | hm | ⟨src, node, hn, hm | ⟨hm, _⟩⟩)
    · exact absurd hm List.not_mem_nil
    · exact Or.inl hm
    · exact Or.inr ⟨src, node, hn, hm⟩
    · exact absurd hm List.not_mem_nil
  · rintro (hm | ⟨src, node, hn, hm⟩)
    · exact Or.inr (Or.inl hm)
    · exact Or.inr (Or.inr ⟨src, node, hn, Or.inl hm⟩)

def Behind (h : Heap) (a x : NodeId) : Prop :=
  ∃ src root, Relation.ReflTransGen h.Stores a src ∧ h.Hides src root ∧
    Relation.ReflTransGen h.Stores root x

theorem Behind.trans {a b c : NodeId} (hab : h.Behind a b) (hbc : h.Behind b c) : h.Behind a c := by
  obtain ⟨src, root, hs, hh, hp⟩ := hab
  obtain ⟨src', root', hs', hh', hp'⟩ := hbc
  exact ⟨src, root, hs, hh, ((hp.trans hs').tail hh'.stores).trans hp'⟩

theorem OpenHanded.not_behind (hopen : h.OpenHanded) (x : NodeId) : ¬ h.Behind x x := by
  rintro ⟨src, root, hs, hh, hp⟩
  exact hopen src root hh (hp.trans hs)

theorem OpenHanded.induction (hopen : h.OpenHanded) {P : NodeId → Prop}
    (step : ∀ x, x < h.cells.size → (∀ a, a < h.cells.size → h.Behind a x → P a) → P x) :
    ∀ x, x < h.cells.size → P x := by
  have htrans : IsTrans (Fin h.cells.size) fun a b => h.Behind a b := ⟨fun _ _ _ => Behind.trans⟩
  have hirrefl : Std.Irrefl (α := Fin h.cells.size) fun a b => h.Behind a b :=
    ⟨fun x => hopen.not_behind x⟩
  have hwf := Finite.wellFounded_of_trans_of_irrefl fun a b : Fin h.cells.size => h.Behind a b
  intro x hx
  refine hwf.induction (C := fun x : Fin h.cells.size => P x) ⟨x, hx⟩ fun y ih => ?_
  exact step y y.isLt fun a ha hb => ih ⟨a, ha⟩ hb

/-- **When a pass finds no garbage**, and no hidden reference lies on a cycle, every live node can be
reached from a root. -/
theorem reachedFrom_of_empty (hr : h.Reachable held) (hb : h.borrowed = []) (hopen : h.OpenHanded)
    (hz : h.collect.2 = 0) (hl : h.isLive id = true) : h.ReachedFrom held id := by
  have hall : ∀ x, x < h.cells.size → h.isLive x = true → h.ReachedFrom held x := by
    refine hopen.induction fun x _ ih hl => ?_
    obtain ⟨root, hroot, hp⟩ := (needed_iff hr hb).mp (needed_of_empty hr hz hl)
    have hp : Relation.ReflTransGen h.Stores root x := path_of_follows hp
    rcases hroot with hroot | ⟨src, hh⟩
    · exact ⟨root, hroot, hp⟩
    · have hsrc : h.isLive src = true := isLive_of_node? hh.choose_spec.1
      obtain ⟨start, hstart, hpath⟩ :=
        ih src (lt_size_of_isLive hsrc) ⟨src, root, .refl, hh, hp⟩ hsrc
      exact ⟨start, hstart, (hpath.tail hh.stores).trans hp⟩
  exact hall id (lt_size_of_isLive hl) hl

/-! ## Many passes -/

theorem Reachable.afterPasses (hr : h.Reachable held) (n : Nat) :
    (h.afterPasses n).Reachable held ∧ Shrinks h (h.afterPasses n) := by
  induction n with
  | zero => exact ⟨hr, Shrinks.refl h⟩
  | succ n ih => exact ⟨ih.1.collect, ih.2.trans ih.1.sound.collect.2⟩

theorem collect_collect_snd_eq_zero (hr : h.Reachable held) (hz : h.collect.2 = 0) :
    h.collect.1.collect.2 = 0 := by
  have hnode := node?_collect_of_empty hr hz
  have hk := hr.sound.collect.2
  have hedges (x : NodeId) : h.collect.1.edges x = h.edges x := by
    rw [edges, edges, hnode, hk.borrowed]
  have hhandles (x : NodeId) : h.collect.1.handles x = h.handles x := by
    rw [hr.collect.sound.counted.handles_eq, hr.sound.counted.handles_eq, permanent_congr hk.realm]
  refine (collect_snd_eq_zero_iff hr.collect).mpr fun id hl => ?_
  obtain ⟨root, hroot, hp⟩ := needed_of_empty hr hz ((isLive_congr (hnode id)).symm.trans hl)
  refine ⟨root, ?_, Relation.ReflTransGen.mono (fun a b hf => ?_) _ _ hp⟩
  · rw [External, hhandles, hk.borrowed]
    simp only [hnode]
    exact hroot
  · rw [Follows, hedges]
    exact hf

/-- **As long as passes find garbage**, each leaves at least one node less. -/
theorem length_liveCells_afterPasses (hr : h.Reachable held) (n : Nat) :
    (h.afterPasses n).collect.2 = 0 ∨
      (h.afterPasses n).liveCells.length + n ≤ h.liveCells.length := by
  induction n with
  | zero => exact Or.inr le_rfl
  | succ n ih =>
    by_cases hz : (h.afterPasses n).collect.2 = 0
    · exact Or.inl (collect_collect_snd_eq_zero (hr.afterPasses n).1 hz)
    · have hless := length_liveCells_collect_lt (hr.afterPasses n).1 hz
      have hsize := ih.resolve_left hz
      refine Or.inr ?_
      rw [afterPasses]
      omega

/-- **Passes run dry** after at most as many as there are nodes. -/
theorem collect_afterPasses_snd_eq_zero (hr : h.Reachable held) {n : Nat}
    (hn : h.liveCells.length ≤ n) : (h.afterPasses n).collect.2 = 0 := by
  by_contra hne
  have hsize := (length_liveCells_afterPasses hr n).resolve_left hne
  have hless := length_liveCells_collect_lt (hr.afterPasses n).1 hne
  omega

/-! ## Heaps without hidden references -/

theorem follows_of_stores (hb : h.borrowed = []) (hplain : ∀ a b, ¬ h.Hides a b) {a b : NodeId}
    (hs : h.Stores a b) : h.Follows a b := by
  obtain ⟨node, hn, hm⟩ := hs
  rw [Follows, edges_of_node? hn, hb, if_neg List.not_mem_nil]
  exact (List.mem_append.mp hm).resolve_right fun hm => hplain a b ⟨node, hn, hm⟩

theorem needed_iff_reachedFrom (hr : h.Reachable held) (hb : h.borrowed = [])
    (hplain : ∀ a b, ¬ h.Hides a b) : h.Needed id ↔ h.ReachedFrom held id := by
  rw [needed_iff hr hb]
  constructor
  · rintro ⟨root, hroot, hp⟩
    refine ⟨root, hroot.resolve_right fun hh => ?_, path_of_follows hp⟩
    exact hplain _ root hh.choose_spec
  · rintro ⟨root, hroot, hp⟩
    exact ⟨root, Or.inl hroot,
      Relation.ReflTransGen.mono (fun _ _ => follows_of_stores hb hplain) _ _ hp⟩

/-- **Where nothing is hidden, one pass is enough**: it frees exactly what cannot be reached from
the roots, and the next pass finds no garbage. -/
theorem collect_of_plain (hr : h.Reachable held) (hb : h.borrowed = [])
    (hplain : ∀ a b, ¬ h.Hides a b) :
    (∀ id, h.collect.1.isLive id = true ↔ h.ReachedFrom held id) ∧ h.collect.1.collect.2 = 0 := by
  obtain ⟨_, _, hk, hdead⟩ := collect_spec hr.sound.counted hr.sound.booked
  have hkept {id : NodeId} (hl : h.collect.1.isLive id = true) : h.ReachedFrom held id := by
    rw [← needed_iff_reachedFrom hr hb hplain]
    by_contra hnot
    have hm := (mem_sift_snd_iff hr.sound.booked).mpr ⟨hk.isLive hl, hnot⟩
    rw [hdead id hm] at hl
    cases hl
  refine ⟨fun id => ⟨hkept, fun hf => (hr.collect.reachedFrom_of_shrinks hk hf).1⟩, ?_⟩
  refine (collect_snd_eq_zero_iff hr.collect).mpr fun id hl => ?_
  refine (needed_iff_reachedFrom hr.collect (hk.borrowed.trans hb) fun a b hh => ?_).mpr
    (hr.collect.reachedFrom_of_shrinks hk (hkept hl)).2
  obtain ⟨node, hn, hm⟩ := hh
  exact hplain a b ⟨node, hk.nodes hn, hm⟩

end Heap

end ScriptCore
