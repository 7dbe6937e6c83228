import Mathlib
import ScriptCore.Proofs.Heap.Counting

/-!
# Trial deletion and marking

What a collection works out, compared with what it is meant to find.

* `storedCount_eq_add`: every stored reference is followed once, or counted among those that are not
  followed.
* `externalCounts_pos_iff`: a count is left over exactly for the nodes with a reference that is not
  followed (`External`).
* `isMarked_marks_iff`: the marks are on exactly the nodes that can be reached from a root along the
  edges.
-/

namespace ScriptCore

namespace Heap

variable {h : Heap} {id : NodeId} {nodes : List NodeId}

/-! ## Counts -/

/-- A count that is changed in one way for every node in a list, changes as often as its own node is
there. -/
theorem getElem?_foldl_modify (f : Nat → Nat) (ids : List NodeId) (x : NodeId) :
    ∀ counts : Array Nat, (ids.foldl (fun counts id => counts.modify id f) counts)[x]? =
      counts[x]?.map f^[ids.count x] := by
  induction ids with
  | nil => intro counts; simp
  | cons id ids ih =>
    intro counts
    rw [List.foldl_cons, ih, Array.getElem?_modify, List.count_cons]
    by_cases he : id = x
    · subst he
      simp [Function.iterate_succ]
    · simp [he]

theorem getElem?_foldl_increment (ids : List NodeId) (x : NodeId) (counts : Array Nat) :
    (ids.foldl (fun counts id => counts.modify id (· + 1)) counts)[x]? =
      counts[x]?.map (· + ids.count x) := by
  rw [getElem?_foldl_modify, add_right_iterate, smul_eq_mul, mul_one]

theorem getElem?_foldl_decrement (ids : List NodeId) (x : NodeId) (counts : Array Nat) :
    (ids.foldl (fun counts id => counts.modify id (· - 1)) counts)[x]? =
      counts[x]?.map (· - ids.count x) := by
  have hpred : (fun n : Nat => n - 1)^[ids.count x] = fun n => n - ids.count x :=
    funext fun n => Nat.pred_iterate n _
  rw [getElem?_foldl_modify, hpred]

theorem count_flatMap_references (cells : List Cell) :
    (cells.flatMap fun cell => cell.node.references).count id =
      (cells.map fun cell => cell.node.references.count id).sum := by
  induction cells with
  | nil => rfl
  | cons cell cells ih => simp [List.count_append, ih]

theorem strongCounts_getElem? (hlt : id < h.cells.size) :
    h.strongCounts[id]? = some (h.strongCount id) := by
  rw [strongCounts, getElem?_foldl_increment, Array.getElem?_map, Array.getElem?_eq_getElem hlt,
    count_flatMap_references]
  simp [strongCount, handles, storedCount, total_def, cell?, Array.getElem?_eq_getElem hlt]

/-! ## References that are not followed -/

/-- A node with a reference that a collection does not follow: a handle, a reference that it cannot
see, or one stored in a node that is being changed. -/
def External (h : Heap) (id : NodeId) : Prop :=
  0 < h.handles id ∨ ∃ src node, h.node? src = some node ∧
    (id ∈ node.hiddenReferences ∨ (src ∈ h.borrowed ∧ id ∈ node.tracedReferences))

theorem edges_of_node? {src : NodeId} {node : Node} (hn : h.node? src = some node) :
    h.edges src = if src ∈ h.borrowed then [] else node.tracedReferences := by
  simp [edges, hn]

theorem edges_of_not_isLive {src : NodeId} (hl : h.isLive src = false) : h.edges src = [] := by
  simp [edges, node?_eq_none_iff.mpr hl]

def storedIn (h : Heap) (id src : NodeId) : Nat :=
  ((h.node? src).map fun node => node.references.count id).getD 0

/-- How often a node is stored in another one without a collection following it there: in a payload
or a closure, and anywhere in the other node while that is being changed. -/
def untracedIn (h : Heap) (id src : NodeId) : Nat :=
  match h.node? src with
  | some node => node.hiddenReferences.count id +
      if src ∈ h.borrowed then node.tracedReferences.count id else 0
  | none => 0

/-- How many of the stored references to a node a collection does not follow. -/
def untracedCount (h : Heap) (id : NodeId) : Nat :=
  ∑ src ∈ Finset.range h.cells.size, h.untracedIn id src

theorem storedCount_eq_sum (h : Heap) (id : NodeId) :
    h.storedCount id = ∑ src ∈ Finset.range h.cells.size, h.storedIn id src := by
  rw [show h.storedCount id = h.total fun c => c.node.references.count id from rfl, total_eq_sum]
  refine Finset.sum_congr rfl fun src _ => ?_
  rw [storedIn, node?, Option.map_map]
  rfl

theorem storedIn_eq_add (h : Heap) (id src : NodeId) :
    h.storedIn id src = (h.edges src).count id + h.untracedIn id src := by
  cases hn : h.node? src with
  | none => simp [storedIn, untracedIn, hn, edges_of_not_isLive (node?_eq_none_iff.mp hn)]
  | some node =>
    simp only [storedIn, untracedIn, hn, edges_of_node? hn, Option.map_some, Option.getD_some,
      Node.references, List.count_append]
    by_cases hb : src ∈ h.borrowed
    · simp [hb, Nat.add_comm]
    · simp [hb]

theorem untracedIn_pos_iff {src : NodeId} :
    0 < h.untracedIn id src ↔ ∃ node, h.node? src = some node ∧
      (id ∈ node.hiddenReferences ∨ (src ∈ h.borrowed ∧ id ∈ node.tracedReferences)) := by
  cases hn : h.node? src with
  | none => simp [untracedIn, hn]
  | some node =>
    simp only [untracedIn, hn, Option.some.injEq, exists_eq_left', Nat.add_pos_iff_pos_or_pos,
      List.count_pos_iff]
    by_cases hb : src ∈ h.borrowed <;> simp [hb, List.count_pos_iff]

theorem untracedCount_pos_iff :
    0 < h.untracedCount id ↔ ∃ src node, h.node? src = some node ∧
      (id ∈ node.hiddenReferences ∨ (src ∈ h.borrowed ∧ id ∈ node.tracedReferences)) := by
  rw [untracedCount, Finset.sum_pos_iff]
  simp only [untracedIn_pos_iff, Finset.mem_range]
  exact ⟨fun ⟨src, _, hs⟩ => ⟨src, hs⟩,
    fun ⟨src, node, hn, hr⟩ => ⟨src, lt_size_of_node? hn, node, hn, hr⟩⟩

theorem count_flatMap_edges (hd : nodes.Nodup) (hl : ∀ x, x ∈ nodes ↔ h.isLive x = true) :
    (nodes.flatMap h.edges).count id =
      ∑ src ∈ Finset.range h.cells.size, (h.edges src).count id := by
  have hsub : nodes.toFinset ⊆ Finset.range h.cells.size := fun x hx =>
    Finset.mem_range.mpr (lt_size_of_isLive ((hl x).mp (List.mem_toFinset.mp hx)))
  rw [List.count_flatMap, ← Finset.sum_subset hsub fun x _ hx => ?_, ← List.sum_toFinset _ hd]
  · rfl
  · rw [edges_of_not_isLive, List.count_nil]
    rw [List.mem_toFinset, hl] at hx
    simpa using hx

/-- **Stored references are either followed or not**: the edges to a node and the references to it
that are not followed are all that is stored. -/
theorem storedCount_eq_add (hd : nodes.Nodup) (hl : ∀ x, x ∈ nodes ↔ h.isLive x = true) :
    h.storedCount id = (nodes.flatMap h.edges).count id + h.untracedCount id := by
  rw [storedCount_eq_sum, count_flatMap_edges hd hl, untracedCount, ← Finset.sum_add_distrib]
  exact Finset.sum_congr rfl fun src _ => storedIn_eq_add h id src

theorem externalCounts_getElem? (hd : nodes.Nodup) (hl : ∀ x, x ∈ nodes ↔ h.isLive x = true)
    (hlt : id < h.cells.size) :
    (h.externalCounts nodes)[id]? = some (h.handles id + h.untracedCount id) := by
  rw [externalCounts, getElem?_foldl_decrement, strongCounts_getElem? hlt, strongCount,
    storedCount_eq_add hd hl, Option.map_some]
  congr 1
  omega

/-- **Trial deletion**: taking the edges away leaves a count exactly where a reference is not
followed. -/
theorem externalCounts_pos_iff (hd : nodes.Nodup) (hl : ∀ x, x ∈ nodes ↔ h.isLive x = true)
    (hlt : id < h.cells.size) :
    0 < (h.externalCounts nodes)[id]?.getD 0 ↔ h.External id := by
  rw [externalCounts_getElem? hd hl hlt, Option.getD_some, Nat.add_pos_iff_pos_or_pos,
    untracedCount_pos_iff, External]

/-! ## Marks -/

def isMarked (marked : Array Bool) (id : NodeId) : Bool := marked[id]?.getD false

theorem isMarked_set {marked : Array Bool} {x : NodeId} (hlt : id < marked.size) :
    isMarked (marked.setIfInBounds id true) x = (isMarked marked x || x == id) := by
  rw [isMarked, isMarked, Array.getElem?_setIfInBounds]
  by_cases he : id = x
  · subst he
    simp [hlt]
  · simp [he, Ne.symm he]

theorem lt_size_of_isMarked {marked : Array Bool} (hm : isMarked marked id = true) :
    id < marked.size := by
  by_contra hge
  rw [isMarked, Array.getElem?_eq_none (Nat.le_of_not_lt hge)] at hm
  exact absurd hm (by simp)

/-- The invariant of marking. What follows a marked node is marked or waiting, and all of these
satisfy `P`. -/
structure Marking (h : Heap) (P : NodeId → Prop) (waiting : List NodeId) (marked : Array Bool) :
    Prop where
  size : marked.size = h.cells.size
  expanded : ∀ {a}, isMarked marked a = true → ∀ b ∈ h.edges a,
    b < h.cells.size → isMarked marked b = true ∨ b ∈ waiting
  marked_sat : ∀ {a}, isMarked marked a = true → P a
  waiting_sat : ∀ a ∈ waiting, P a

/-- The edges that have still to be followed: those from nodes without a mark. -/
def edgesLeft (h : Heap) (nodes : List NodeId) (marked : Array Bool) : Nat :=
  ((nodes.filter fun id => !isMarked marked id).map fun id => (h.edges id).length).sum

theorem edgesLeft_cons (h : Heap) (x : NodeId) (nodes : List NodeId) (marked : Array Bool) :
    h.edgesLeft (x :: nodes) marked =
      (if isMarked marked x then 0 else (h.edges x).length) + h.edgesLeft nodes marked := by
  cases hx : isMarked marked x <;> simp [edgesLeft, hx]

theorem edgesLeft_set_le (nodes : List NodeId) {marked : Array Bool} (hlt : id < marked.size) :
    h.edgesLeft nodes (marked.setIfInBounds id true) ≤ h.edgesLeft nodes marked := by
  induction nodes with
  | nil => exact le_rfl
  | cons x nodes ih =>
    rw [edgesLeft_cons, edgesLeft_cons, isMarked_set hlt]
    cases isMarked marked x <;> by_cases he : x = id <;> simp [he] <;> omega

/-- A new mark takes the edges of its node off what is left, if the node is in the list or has none. -/
theorem edgesLeft_set {marked : Array Bool} (hlt : id < marked.size)
    (hm : isMarked marked id = false) (hmem : h.edges id ≠ [] → id ∈ nodes) :
    h.edgesLeft nodes (marked.setIfInBounds id true) + (h.edges id).length ≤
      h.edgesLeft nodes marked := by
  by_cases hnil : h.edges id = []
  · rw [hnil]
    exact edgesLeft_set_le nodes hlt
  replace hmem : id ∈ nodes := hmem hnil
  induction nodes with
  | nil => exact absurd hmem (by simp)
  | cons x nodes ih =>
    rw [edgesLeft_cons, edgesLeft_cons, isMarked_set hlt]
    by_cases he : x = id
    · subst he
      have := edgesLeft_set_le (h := h) nodes hlt
      simp only [hm, beq_self_eq_true, Bool.or_true, if_true, Bool.false_eq_true, if_false]
      omega
    · have := ih ((List.mem_cons.mp hmem).resolve_left (Ne.symm he))
      simp only [beq_eq_false_iff_ne.mpr he, Bool.or_false]
      omega

def Seen (h : Heap) (waiting : List NodeId) (marked : Array Bool) (a : NodeId) : Prop :=
  isMarked marked a = true ∨ (a ∈ waiting ∧ a < h.cells.size)

variable {P : NodeId → Prop} {waiting : List NodeId} {marked : Array Bool} {a b : NodeId}

theorem Seen.expand (ha : h.Seen (id :: waiting) marked a) (hlt : id < marked.size) :
    h.Seen (h.edges id ++ waiting) (marked.setIfInBounds id true) a := by
  rw [Seen, isMarked_set hlt, Bool.or_eq_true, beq_iff_eq]
  rcases ha with ha | ⟨ha, hal⟩
  · exact Or.inl (Or.inl ha)
  · rcases List.mem_cons.mp ha with rfl | ha
    · exact Or.inl (Or.inr rfl)
    · exact Or.inr ⟨List.mem_append_right _ ha, hal⟩

theorem Marking.seen (hm : Marking h P waiting marked) (ha : isMarked marked a = true)
    (hb : b ∈ h.edges a) (hbl : b < h.cells.size) : h.Seen waiting marked b :=
  (hm.expanded ha b hb hbl).imp_right fun hw => ⟨hw, hbl⟩

theorem Marking.expand (hm : Marking h P (id :: waiting) marked) (hlt : id < marked.size)
    (hP : ∀ {a b}, P a → b ∈ h.edges a → P b) :
    Marking h P (h.edges id ++ waiting) (marked.setIfInBounds id true) := by
  have hset {x : NodeId} := isMarked_set (x := x) hlt
  refine ⟨by simpa using hm.size, fun {a} ha b hb hbl => ?_, fun {a} ha => ?_, fun a ha => ?_⟩
  · rw [hset, Bool.or_eq_true, beq_iff_eq] at ha
    rcases ha with ha | rfl
    · exact ((hm.seen ha hb hbl).expand hlt).imp_right And.left
    · exact Or.inr (List.mem_append_left _ hb)
  · rw [hset, Bool.or_eq_true, beq_iff_eq] at ha
    rcases ha with ha | rfl
    · exact hm.marked_sat ha
    · exact hm.waiting_sat a (List.mem_cons_self ..)
  · rcases List.mem_append.mp ha with ha | ha
    · exact hP (hm.waiting_sat id (List.mem_cons_self ..)) ha
    · exact hm.waiting_sat a (List.mem_cons_of_mem id ha)

theorem Marking.skip (hm : Marking h P (id :: waiting) marked)
    (hs : marked[id]?.getD true = true) : Marking h P waiting marked ∧
      ∀ a, h.Seen (id :: waiting) marked a → h.Seen waiting marked a := by
  have hdone (hlt : id < h.cells.size) : isMarked marked id = true := by
    rw [← hm.size] at hlt
    rw [Array.getElem?_eq_getElem hlt, Option.getD_some] at hs
    rw [isMarked, Array.getElem?_eq_getElem hlt, Option.getD_some, hs]
  have hseen (a : NodeId) (ha : h.Seen (id :: waiting) marked a) : h.Seen waiting marked a := by
    rcases ha with ha | ⟨ha, hlt⟩
    · exact Or.inl ha
    · rcases List.mem_cons.mp ha with rfl | ha
      · exact Or.inl (hdone hlt)
      · exact Or.inr ⟨ha, hlt⟩
  refine ⟨⟨hm.size, fun {a} ha b hb hbl => ?_, hm.marked_sat,
    fun a ha => hm.waiting_sat a (List.mem_cons_of_mem id ha)⟩, hseen⟩
  exact (hseen b (hm.seen ha hb hbl)).imp_right And.left

theorem unmarked_of_getD (hs : ¬ marked[id]?.getD true = true) :
    id < marked.size ∧ isMarked marked id = false := by
  have hlt : id < marked.size := by
    by_contra hge
    exact hs (by rw [Array.getElem?_eq_none (Nat.le_of_not_lt hge)]; rfl)
  rw [Array.getElem?_eq_getElem hlt, Option.getD_some] at hs
  refine ⟨hlt, ?_⟩
  rw [isMarked, Array.getElem?_eq_getElem hlt, Option.getD_some]
  simpa using hs

/-- **Marking ends** with nothing waiting, and with a mark on everything that was seen. -/
theorem markFrom_spec (hP : ∀ {a b}, P a → b ∈ h.edges a → P b)
    (hcover : ∀ {a}, h.edges a ≠ [] → a ∈ nodes) :
    ∀ (fuel : Nat) (waiting : List NodeId) (marked : Array Bool),
      waiting.length + h.edgesLeft nodes marked ≤ fuel → Marking h P waiting marked →
      Marking h P [] (h.markFrom fuel waiting marked) ∧
        ∀ a, h.Seen waiting marked a → isMarked (h.markFrom fuel waiting marked) a = true := by
  have hnone {marked : Array Bool} {a : NodeId} (ha : h.Seen [] marked a) :
      isMarked marked a = true := ha.resolve_right fun hw => absurd hw.1 List.not_mem_nil
  intro fuel
  induction fuel with
  | zero =>
    intro waiting marked hf hm
    obtain rfl : waiting = [] := List.length_eq_zero_iff.mp (by omega)
    exact ⟨hm, fun a ha => hnone ha⟩
  | succ fuel ih =>
    intro waiting marked hf hm
    cases waiting with
    | nil => exact ⟨hm, fun a ha => hnone ha⟩
    | cons id waiting =>
      rw [List.length_cons] at hf
      rw [markFrom]
      by_cases hs : marked[id]?.getD true = true
      · obtain ⟨hskip, hseen⟩ := hm.skip hs
        rw [if_pos hs]
        obtain ⟨hend, hall⟩ := ih waiting marked (by omega) hskip
        exact ⟨hend, fun a ha => hall a (hseen a ha)⟩
      · obtain ⟨hlt, hunmarked⟩ := unmarked_of_getD hs
        have hleft := edgesLeft_set hlt hunmarked (fun he => hcover he)
        rw [if_neg hs]
        obtain ⟨hend, hall⟩ := ih (h.edges id ++ waiting) (marked.setIfInBounds id true)
          (by rw [List.length_append]; omega) (hm.expand hlt hP)
        exact ⟨hend, fun a ha => hall a (ha.expand hlt)⟩

def Follows (h : Heap) (a b : NodeId) : Prop := b ∈ h.edges a

theorem edgesLeft_replicate (h : Heap) (nodes : List NodeId) (n : Nat) :
    h.edgesLeft nodes (Array.replicate n false) = (nodes.flatMap h.edges).length := by
  have hnone (id : NodeId) : isMarked (Array.replicate n false) id = false := by
    rw [isMarked, Array.getElem?_replicate]
    split <;> rfl
  simp [edgesLeft, hnone, List.length_flatMap]

theorem isLive_of_edges_ne_nil {a : NodeId} (he : h.edges a ≠ []) : h.isLive a = true := by
  by_contra hl
  exact he (edges_of_not_isLive (by simpa using hl))

/-- **The marks are on what can be reached from the roots.** -/
theorem isMarked_marks_iff (hl : ∀ x, x ∈ nodes ↔ h.isLive x = true) :
    isMarked (h.marks nodes) id = true ↔
      id < h.cells.size ∧ ∃ root ∈ h.roots nodes, Relation.ReflTransGen h.Follows root id := by
  have hstart : Marking h (fun x => ∃ root ∈ h.roots nodes, Relation.ReflTransGen h.Follows root x)
      (h.roots nodes) (Array.replicate h.cells.size false) := by
    have hnone {a : NodeId} : isMarked (Array.replicate h.cells.size false) a = false := by
      rw [isMarked, Array.getElem?_replicate]
      split <;> rfl
    exact ⟨by simp, fun ha => by simp [hnone] at ha, fun ha => by simp [hnone] at ha,
      fun a ha => ⟨a, ha, .refl⟩⟩
  obtain ⟨hend, hall⟩ := markFrom_spec (fun ⟨r, hr, hp⟩ hb => ⟨r, hr, hp.tail hb⟩)
    (fun he => (hl _).mpr (isLive_of_edges_ne_nil he)) _ _ _
    (by rw [edgesLeft_replicate]) hstart
  constructor
  · exact fun hm => ⟨hend.size ▸ lt_size_of_isMarked hm, hend.marked_sat hm⟩
  · rintro ⟨hlt, root, hr, hp⟩
    induction hp with
    | refl => exact hall root (Or.inr ⟨hr, hlt⟩)
    | @tail b c hp hbc ih =>
      have hb : b < h.cells.size :=
        lt_size_of_isLive (isLive_of_edges_ne_nil (List.ne_nil_of_mem hbc))
      exact (hend.expanded (ih hb) c hbc hlt).elim (fun hc => hc) fun hc => absurd hc (by simp)

end Heap

end ScriptCore
