import ScriptCore.Proofs.Agreement.Basic

/-!
# Agreement

A **history** tells what is known of the heaps that a run comes to; every move keeps it. `Agree links
h k`: the heaps match, and the history admits both of them. So what is proved of two runs side by side
tells at the same time what becomes of one heap in the course of a run. Where nothing is known of the
heaps (`History.any`), to agree is to match.

Agreement is kept when both sides make the same move, and when one side alone collects garbage.
-/

namespace ScriptCore

/-- What is known of the heaps that a run comes to. Every move keeps it. -/
class History where
  Admits : Heap → Prop
  move : ∀ {h k : Heap}, Heap.Move h k → Admits h → Admits k

/-- Whether it is known where things stand: in the same places on all heaps. -/
def History.TellsPlaces [History] : Prop :=
  ∀ {h k : Heap}, History.Admits h → History.Admits k → k.places = h.places

instance (priority := low) History.any : History := ⟨fun _ => True, fun _ _ => trivial⟩

abbrev History.standing (P : Places Nat → Prop) : History :=
  ⟨fun h => P h.places, fun hm hh => (congrArg P hm.changes.places).mpr hh⟩

theorem History.tellsPlaces_standing (p : Places Nat) : @TellsPlaces (.standing (· = p)) :=
  fun hh hk => hk.trans hh.symm

namespace Heap

/-- Two heaps that cannot be told apart from the links held on them, and that the history admits. -/
structure Agree [History] (links : List Link) (h k : Heap) : Prop extends Matches links h k where
  leftAdmits : History.Admits h
  rightAdmits : History.Admits k

namespace Agree

variable [History] {h k : Heap} {id : NodeId} {l : Link} {links more : List Link}

theorem refl (hr : h.Reachable (links.map Link.target)) (hl : ∀ l ∈ links, h.Has l)
    (hp : History.Admits h) : Agree links h h := ⟨.refl hr hl, hp, hp⟩

theorem symm (ha : Agree links h k) : Agree links k h :=
  ⟨ha.toMatches.symm, ha.rightAdmits, ha.leftAdmits⟩

theorem perm (ha : Agree links h k) (hp : links.Perm more) : Agree more h k :=
  ⟨ha.toMatches.perm hp, ha.leftAdmits, ha.rightAdmits⟩

theorem move {h' k' : Heap} (ha : Agree links h k) (hm : Matches more h' k') (hh : Move h h')
    (hk : Move k k') : Agree more h' k' :=
  ⟨hm, History.move hh ha.leftAdmits, History.move hk ha.rightAdmits⟩

/-! ## Collections -/

/-- **A collection of one side alone** is not seen, whatever nodes count as being changed then. -/
theorem collectWhile_left (ha : Agree links h k) (ids : List NodeId) :
    Agree links { ({ h with borrowed := ids }.collect).1 with borrowed := h.borrowed } k :=
  ⟨((ha.borrow ids k.borrowed).collect_left).borrow h.borrowed k.borrowed,
    History.move (.collectWhile ha.left ids) ha.leftAdmits, ha.rightAdmits⟩

/-! ## Handles -/

theorem hold (ha : Agree links h k) (hm : ∀ l ∈ more, h.Sees links l) :
    Agree (more ++ links) (h.addHandles (more.map Link.target))
      (k.addHandles (more.map Link.target)) :=
  ha.move (ha.toMatches.hold hm) (.hold h _) (.hold k _)

theorem letGo {items : List Pending} (ha : Agree (more ++ links) h k)
    (hi : items.flatMap Pending.references = more.map Link.target)
    (hbare : items.flatMap Pending.payloads = []) :
    Agree links (h.letGo items) (k.letGo items) := by
  have hl := ha.left
  have hr := ha.right
  rw [List.map_append, ← hi] at hl hr
  exact ha.move (ha.toMatches.letGo hi) (.letGo hl hbare) (.letGo hr hbare)

theorem handOver (ha : Agree (more ++ links) h k) (hm : ∀ l ∈ more, Kept h links l) :
    Agree links (h.removeHandles (more.map Link.target))
      (k.removeHandles (more.map Link.target)) :=
  ha.move (ha.toMatches.handOver hm) (.handOver h _) (.handOver k _)

/-! ## Nodes -/

/-- **The same node is put on both heaps**, under the same name. -/
theorem alloc (ha : Agree links h k) (node : Node) (hl : ∀ l ∈ node.links, h.Sees links l)
    (hp : node.payload? = none) :
    Agree (node.linkTo h.cells.size :: links) (h.alloc node).2 (k.alloc node).2 := by
  have hhas (l : Link) (hm : l ∈ node.links) : h.Has l := ha.has_of_sees (hl l hm)
  refine ha.move (ha.toMatches.alloc node hl) (.alloc ha.left hhas hp) (.alloc ha.right ?_ hp)
  exact fun l hm => (hhas l hm).congr (ha.nodes (hl l hm))

/-! ## What is not in the cells -/

theorem configure (ha : Agree links h k) (threshold other depth : Nat) :
    Agree links (h.configure ⟨threshold, depth⟩) (k.configure ⟨other, depth⟩) :=
  ha.move (ha.toMatches.configure threshold other depth) (.configure h _) (.configure k _)

theorem install {r : Realm} (ha : Agree (r.references.map .object ++ links) h k)
    (hnone : h.realm = none) :
    Agree links { h with realm := some r } { k with realm := some r } :=
  ha.move (ha.toMatches.install hnone) (.install h r) (.install k r)

/-! ## Replacing with release -/

/-- **A node is replaced, and the references lost by that are let go.** A node that is held is still
there then. -/
theorem replaceNode {old node : Node} {lost : List Pending} {gone : List Link}
    (ha : Agree links h k)
    (hopen : Matches (gone ++ links) (h.opened id node lost) (k.opened id node lost))
    (hn : h.node? id = some old) (hs : h.Sees links (old.linkTo id)) (hsteady : old.Steady node)
    (hg : lost.flatMap Pending.references = gone.map Link.target)
    (hbare : lost.flatMap Pending.payloads = []) :
    Agree links (h.replaceNode id node lost) (k.replaceNode id node lost) ∧
      (old.linkTo id ∈ links → (h.replaceNode id node lost).node? id = some node) := by
  obtain ⟨hmatch, hnode⟩ := hopen.replaceNode hn hg
  have hleft := hopen.left
  have hright := hopen.right
  rw [List.map_append, ← hg] at hleft hright
  exact ⟨ha.move hmatch (.replace hleft hn hsteady hbare)
    (.replace hright (ha.node?_right hn hs) hsteady hbare), hnode⟩

end Agree

end Heap

end ScriptCore
