import ScriptCore.Object.Prototype
import ScriptCore.Proofs.Heap.Collection
import ScriptCore.Settings

/-!
# Sound heaps

`Sound h held`: between two collections, with the references in `held` held from outside besides
those to the prototypes of the heap. The counts and the books are right, every link leads to a live
node of its kind, and no object is on its own prototype chain.

Soundness is kept when nodes die (`Sound.shrinks`), when a node is put on the heap (`Sound.push`),
and when a node is replaced by one of its kind (`Sound.setNode`), provided that a new prototype does
not inherit from the node.
-/

namespace ScriptCore

def Realm.references (r : Realm) : List NodeId :=
  [r.objectPrototype, r.arrayPrototype, r.stringPrototype, r.functionPrototype]

def Node.prototype? : Node → Option NodeId
  | .object o => o.prototype
  | .scope _ => none

theorem Node.link_prototype (node : Node) {p : NodeId} (hp : node.prototype? = some p) :
    .object p ∈ node.links := by
  cases node with
  | object o =>
    have hp : o.prototype = some p := hp
    simp [links, Object.links, hp]
  | scope s => simp [prototype?] at hp

namespace Heap

variable {h k : Heap} {id : NodeId} {l : Link} {held : List NodeId}

/-- One object inherits from another at once. -/
def Inherits (h : Heap) (a b : NodeId) : Prop := h.prototype? a = some b

/-- What a heap holds for good. -/
def permanent (h : Heap) : List NodeId := h.realm.toList.flatMap Realm.references

structure Sound (h : Heap) (held : List NodeId) : Prop where
  counted : h.Counted (h.permanent ++ held)
  booked : h.Booked
  has_links : ∀ {src node}, h.node? src = some node → ∀ l ∈ node.links, h.Has l
  has_permanent : ∀ id ∈ h.permanent, h.Has (.object id)
  acyclic : ∀ id, ¬ Relation.TransGen h.Inherits id id

theorem inherits_iff {a b : NodeId} :
    h.Inherits a b ↔ ∃ node, h.node? a = some node ∧ node.prototype? = some b := by
  rw [Inherits, prototype?, object?]
  constructor
  · intro hi
    cases hn : h.node? a with
    | none => simp [hn] at hi
    | some node =>
      refine ⟨node, rfl, ?_⟩
      cases node with
      | object o => simpa [hn, Node.prototype?] using hi
      | scope s => simp [hn] at hi
  · rintro ⟨node, hn, hp⟩
    cases node with
    | object o => simpa [hn, Node.prototype?] using hp
    | scope s => simp [Node.prototype?] at hp

theorem permanent_congr (hr : k.realm = h.realm) : k.permanent = h.permanent := by
  rw [permanent, permanent, hr]

namespace Sound

theorem isLive (hs : h.Sound held) (hm : id ∈ held) : h.isLive id = true :=
  hs.counted.isLive (List.mem_append_right _ hm)

theorem has_of_inherits {a b : NodeId} (hs : h.Sound held) (hi : h.Inherits a b) :
    h.Has (.object b) := by
  obtain ⟨node, hn, hp⟩ := inherits_iff.mp hi
  exact hs.has_links hn _ (node.link_prototype hp)

theorem initial : Heap.initial.Sound [] := by
  have hnone (id : NodeId) : Heap.initial.node? id = none := by
    simp [node?, cell?, Heap.initial]
  refine ⟨Counted.initial, ⟨List.nodup_nil, fun hm => ?_, fun hl => ?_, rfl⟩, fun hn => ?_,
    fun id hm => ?_, fun id hc => ?_⟩
  · exact absurd hm List.not_mem_nil
  · obtain ⟨node, hn⟩ := isLive_iff_node?.mp hl
    exact absurd hn (by simp [hnone])
  · exact absurd hn (by simp [hnone])
  · exact absurd hm List.not_mem_nil
  · obtain ⟨b, hb, _⟩ := Relation.TransGen.head'_iff.mp hc
    obtain ⟨node, hn, _⟩ := inherits_iff.mp hb
    exact absurd hn (by simp [hnone])

/-- **Nodes have died**, and the counts and the books are right: then all else is. -/
theorem shrinks {held' : List NodeId} (hs : h.Sound held) (hk : Shrinks h k)
    (hc : k.Counted (k.permanent ++ held')) (hb : k.Booked) : k.Sound held' := by
  have hhas {l : Link} (hl : h.Has l) (hlive : k.isLive l.target = true) : k.Has l :=
    hl.congr (hk.node?_eq hlive)
  refine ⟨hc, hb, fun {src node} hn l hm => ?_, fun id hm => ?_, fun id hcycle => ?_⟩
  · refine hhas (hs.has_links (hk.nodes hn) l hm) (hc.stored_live hn _ ?_)
    exact (node.mem_references_iff _).mpr ⟨l, hm, rfl⟩
  · refine hhas (l := .object id) ?_ (hc.isLive (List.mem_append_left _ hm))
    exact hs.has_permanent id (permanent_congr hk.realm ▸ hm)
  · refine hs.acyclic id (Relation.TransGen.mono (fun a b hi => ?_) id id hcycle)
    obtain ⟨node, hn, hp⟩ := inherits_iff.mp hi
    exact inherits_iff.mpr ⟨node, hk.nodes hn, hp⟩

end Sound

/-! ## The books -/

namespace Booked

theorem shrinks (hb : h.Booked) (hk : Shrinks h k) (hc : k.collector = h.collector) :
    k.Booked := by
  refine ⟨hc ▸ hb.nodup, fun hm => ?_, fun hl => ?_, hc ▸ hb.idle⟩
  · rw [hk.size]
    exact hb.lt_size (hc ▸ hm)
  · rw [hc]
    exact hb.complete (hk.isLive hl)

/-- Registering the newest node: it is entered, and of the others no live one is struck off. -/
theorem enter_push (hb : h.Booked) (node : Node) :
    ((h.push node).enter h.cells.size).Booked := by
  have hfresh : h.cells.size ∉ h.collector.registry.toList := fun hm =>
    absurd (hb.lt_size hm) (Nat.lt_irrefl _)
  have hlive {id : NodeId} (hl : (h.push node).isLive id = true) :
      id ∈ h.collector.registry.toList ++ [h.cells.size] := by
    by_cases he : id = h.cells.size
    · exact List.mem_append_right _ (List.mem_singleton.mpr he)
    · refine List.mem_append_left _ (hb.complete ?_)
      rw [← hl]
      refine (isLive_congr ?_).symm
      rw [node?_push, if_neg he]
  have hd : (h.collector.registry.toList ++ [h.cells.size]).Nodup := by
    rw [List.nodup_append]
    refine ⟨hb.nodup, List.nodup_singleton _, fun a ha b hm => ?_⟩
    rw [List.mem_singleton.mp hm]
    rintro rfl
    exact hfresh ha
  have hsize {id : NodeId} (hm : id ∈ h.collector.registry.toList ++ [h.cells.size]) :
      id < (h.push node).cells.size := by
    rw [push, Array.size_push]
    rcases List.mem_append.mp hm with hm | hm
    · exact Nat.lt_succ_of_lt (hb.lt_size hm)
    · rw [List.mem_singleton.mp hm]
      exact Nat.lt_succ_self _
  rw [enter]
  split
  · refine ⟨?_, fun hm => hsize ?_, fun hl => ?_, hb.idle⟩
    · simpa [push] using hd
    · simpa [push] using hm
    · simpa [push] using hlive hl
  · refine ⟨?_, fun {id} hm => hsize ?_, fun {id} hl => ?_, hb.idle⟩
    · simpa [push, Array.toList_filter] using hd.filter _
    · have : id ∈ (h.collector.registry.toList ++ [h.cells.size]).filter (h.push node).isLive := by
        simpa [push, Array.toList_filter] using hm
      exact List.mem_of_mem_filter this
    · have : id ∈ (h.collector.registry.toList ++ [h.cells.size]).filter (h.push node).isLive :=
        List.mem_filter.mpr ⟨hlive hl, hl⟩
      simpa [push, Array.toList_filter] using this

theorem setNode (hb : h.Booked) (id : NodeId) (node : Node) : (h.setNode id node).Booked := by
  have hc := collector_setNode h id node
  refine ⟨hc ▸ hb.nodup, fun hm => ?_, fun hl => ?_, hc ▸ hb.idle⟩
  · rw [(sameFrame_setNode h id node).size]
    exact hb.lt_size (hc ▸ hm)
  · rw [hc]
    exact hb.complete (isLive_setNode h id _ node ▸ hl)

end Booked

/-! ## New nodes and replaced nodes -/

theorem node?_enter (h : Heap) (id other : NodeId) : (h.enter id).node? other = h.node? other := by
  rw [enter]; split <;> rfl

theorem sameFrame_enter (h : Heap) (id : NodeId) : SameFrame h (h.enter id) := by
  rw [enter]; split <;> exact ⟨rfl, rfl, rfl, rfl, rfl⟩

theorem node?_enter_push (h : Heap) (node : Node) (id : NodeId) :
    ((h.push node).enter h.cells.size).node? id =
      if id = h.cells.size then some node else h.node? id := by rw [node?_enter, node?_push]

theorem Has.node?_enter_push (hl : h.Has l) (node : Node) :
    ((h.push node).enter h.cells.size).node? l.target = h.node? l.target := by
  rw [Heap.node?_enter_push, if_neg (Nat.ne_of_lt (lt_size_of_isLive hl.isLive))]

theorem Has.enter_push (hl : h.Has l) (node : Node) :
    ((h.push node).enter h.cells.size).Has l := hl.congr (hl.node?_enter_push node)

theorem Has.setNode {old node : Node} (hl : h.Has l) (hn : h.node? id = some old)
    (hkind : node.linkTo id = old.linkTo id) : (h.setNode id node).Has l := by
  obtain ⟨other, ho, he⟩ := has_iff.mp hl
  refine has_iff.mpr ?_
  by_cases ht : l.target = id
  · rw [ht, hn] at ho
    obtain rfl := Option.some.inj ho
    exact ⟨node, by rw [ht, node?_setNode_self hn], by rw [ht, hkind, ← ht, he]⟩
  · exact ⟨other, (node?_setNode_ne h node ht).trans ho, he⟩

theorem permanent_enter_push (h : Heap) (node : Node) :
    ((h.push node).enter h.cells.size).permanent = h.permanent :=
  permanent_congr (sameFrame_enter (h.push node) _).realm

theorem Counted.congr (hc : h.Counted held) (hs : k.cells = h.cells) : k.Counted held := by
  have hcell (x : NodeId) : k.cell? x = h.cell? x := by rw [cell?, cell?, hs]
  have hnode (x : NodeId) : k.node? x = h.node? x := by rw [node?, node?, hcell]
  refine ⟨fun x => ?_, fun {src node} hn y hy => ?_, fun {x} hx => ?_⟩
  · rw [handles, hcell]
    exact hc.handles_eq x
  · rw [isLive_congr (hnode y)]
    exact hc.stored_live (hnode src ▸ hn) y hy
  · have hp := hc.referenced ((isLive_congr (hnode x)).symm.trans hx)
    rwa [strongCount, handles, hcell, storedCount_congr (by rw [hs]) hnode]

namespace Sound

theorem not_cycle_of_fresh {R S : NodeId → NodeId → Prop} {n : NodeId}
    (hstep : ∀ {a b}, S a b → R a b ∨ a = n) (hfresh : ∀ {a b}, S a b → b ≠ n)
    (hR : ∀ a, ¬ Relation.TransGen R a a) (a : NodeId) : ¬ Relation.TransGen S a a := by
  have hpath {a b : NodeId} (hp : Relation.TransGen S a b) : a ≠ n → Relation.TransGen R a b := by
    intro hne
    induction hp with
    | single hs => exact .single ((hstep hs).resolve_right hne)
    | @tail b c hp hs ih =>
      have hb : b ≠ n := by
        obtain ⟨d, _, hs⟩ := Relation.TransGen.tail'_iff.mp hp
        exact hfresh hs
      exact ih.tail ((hstep hs).resolve_right hb)
  intro hc
  obtain ⟨b, _, hs⟩ := Relation.TransGen.tail'_iff.mp hc
  exact hR a (hpath hc (hfresh hs))

/-- **A new node** is entered in the books, and the caller holds it. -/
theorem push {node : Node} (hs : h.Sound held) (hl : ∀ l ∈ node.links, h.Has l) :
    ((h.push node).enter h.cells.size).Sound (h.cells.size :: held) := by
  have hperm := permanent_enter_push h node
  refine ⟨?_, hs.booked.enter_push node, fun {src other} hn l hm => ?_, fun id hm => ?_,
    not_cycle_of_fresh (R := h.Inherits) (n := h.cells.size) (fun {a b} hi => ?_)
      (fun {a b} hi => ?_) hs.acyclic⟩
  · have hpush := hs.counted.push fun x hx => by
      obtain ⟨l, hm, rfl⟩ := (node.mem_references_iff x).mp hx
      exact (hl l hm).isLive
    rw [hperm]
    refine (hpush.congr ?_).perm List.perm_middle.symm
    rw [enter]; split <;> rfl
  · rw [node?_enter_push] at hn
    split at hn
    · obtain rfl := Option.some.inj hn
      exact (hl l hm).enter_push node
    · exact (hs.has_links hn l hm).enter_push node
  · exact (hs.has_permanent id (hperm ▸ hm)).enter_push node
  · obtain ⟨other, hn, hp⟩ := inherits_iff.mp hi
    rw [node?_enter_push] at hn
    split at hn
    · next he => exact Or.inr he
    · exact Or.inl (inherits_iff.mpr ⟨other, hn, hp⟩)
  · obtain ⟨other, hn, hp⟩ := inherits_iff.mp hi
    have hb : h.Has (.object b) := by
      rw [node?_enter_push] at hn
      split at hn
      · obtain rfl := Option.some.inj hn
        exact hl _ (node.link_prototype hp)
      · exact hs.has_of_inherits (inherits_iff.mpr ⟨other, hn, hp⟩)
    exact Nat.ne_of_lt (lt_size_of_isLive hb.isLive)

/-! ## Replacing a node -/

/-- One more link closes no cycle if its start cannot be reached from its end. -/
theorem not_cycle_of_link {R S : NodeId → NodeId → Prop} {x y : NodeId}
    (hstep : ∀ {a b}, S a b → R a b ∨ (a = x ∧ b = y ∧ ¬ Relation.ReflTransGen R y x))
    (hR : ∀ a, ¬ Relation.TransGen R a a) (a : NodeId) : ¬ Relation.TransGen S a a := by
  have hpath {a b : NodeId} (hp : Relation.TransGen S a b) : Relation.TransGen R a b ∨
      (Relation.ReflTransGen R a x ∧ Relation.ReflTransGen R y b ∧
        ¬ Relation.ReflTransGen R y x) := by
    induction hp with
    | single hs =>
      rcases hstep hs with hr | ⟨rfl, rfl, hno⟩
      · exact Or.inl (.single hr)
      · exact Or.inr ⟨.refl, .refl, hno⟩
    | @tail b c hp hs ih =>
      rcases ih with hab | ⟨hax, hyb, hno⟩
      · rcases hstep hs with hr | ⟨rfl, rfl, hno⟩
        · exact Or.inl (hab.tail hr)
        · exact Or.inr ⟨hab.to_reflTransGen, .refl, hno⟩
      · rcases hstep hs with hr | ⟨rfl, rfl, _⟩
        · exact Or.inr ⟨hax, hyb.tail hr, hno⟩
        · exact absurd hyb hno
  intro hc
  rcases hpath hc with hr | ⟨hax, hya, hno⟩
  · exact hR a hr
  · exact hno (hya.trans hax)

/-- **A node is replaced** by one of its kind, whose links lead to live nodes. What it no longer
stores is held, and a new prototype does not inherit from it. -/
theorem setNode {old node : Node} (hs : h.Sound held) (hn : h.node? id = some old)
    (hkind : node.linkTo id = old.linkTo id) (hl : ∀ l ∈ node.links, h.Has l)
    (hlost : ∀ x ∈ old.references, x ∈ node.references ∨ x ∈ h.permanent ++ held)
    (hproto : ∀ p, node.prototype? = some p →
      old.prototype? = some p ∨ ¬ Relation.ReflTransGen h.Inherits p id) :
    (h.setNode id node).Sound held := by
  have hperm : (h.setNode id node).permanent = h.permanent :=
    permanent_congr (sameFrame_setNode h id node).realm
  have hlinks (l : Link) (hm : l ∈ node.links) : h.isLive l.target = true := (hl l hm).isLive
  refine ⟨?_, hs.booked.setNode id node, fun {src other} ho l hm => ?_, fun x hm => ?_, ?_⟩
  · rw [hperm]
    refine hs.counted.setNode hn (fun x hx => ?_) hlost
    obtain ⟨l, hm, rfl⟩ := (node.mem_references_iff x).mp hx
    exact hlinks l hm
  · rw [node?_setNode] at ho
    split at ho
    · obtain rfl := Option.some.inj ho
      exact (hl l hm).setNode hn hkind
    · exact (hs.has_links ho l hm).setNode hn hkind
  · exact (hs.has_permanent x (hperm ▸ hm)).setNode hn hkind
  · -- All links of prototypes are old ones, except perhaps the one from this node.
    intro a
    refine not_cycle_of_link (R := h.Inherits) (x := id) (y := node.prototype?.getD id)
      (fun {a b} hi => ?_) hs.acyclic a
    obtain ⟨other, ho, hp⟩ := inherits_iff.mp hi
    rw [node?_setNode] at ho
    split at ho
    · next he =>
      obtain rfl := Option.some.inj ho
      rcases hproto b hp with hold | hno
      · exact Or.inl (inherits_iff.mpr ⟨old, he.1 ▸ hn, hold⟩)
      · exact Or.inr ⟨he.1, by rw [hp]; rfl, by rw [hp]; exact hno⟩
    · exact Or.inl (inherits_iff.mpr ⟨other, ho, hp⟩)

end Sound

end Heap

end ScriptCore
