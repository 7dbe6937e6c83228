import ScriptCore.Proofs.Heap.Moves

/-!
# Matching heaps

`Matches links h k`: two reachable heaps on which the same links are held from outside, and which are
the same in everything that can be seen from there (`Sees`). They may differ in what cannot be seen,
and in the books: another collection may have taken place on one of them.

Two heaps go on matching when nodes die on either side (`Matches.shrinks`), so also by a collection of one
side alone (`Matches.collect_left`), and when both sides make the same move.
-/

namespace ScriptCore

namespace Heap

/-- What can be seen of a heap: the prototypes, the links held, and what is stored in what can be
seen. -/
inductive Sees (h : Heap) (links : List Link) : Link → Prop
  | permanent {id : NodeId} (hm : id ∈ h.permanent) : Sees h links (.object id)
  | held {l : Link} (hm : l ∈ links) : Sees h links l
  | stored {l m : Link} {node : Node} (hl : Sees h links l) (hn : h.node? l.target = some node)
      (hm : m ∈ node.links) : Sees h links m

/-- Whether a link is held, or stored in something that can be seen. -/
def Kept (h : Heap) (links : List Link) (l : Link) : Prop :=
  l ∈ links ∨ ∃ m node, h.Sees links m ∧ h.node? m.target = some node ∧ l ∈ node.links

/-- Two heaps that cannot be told apart from the links held on them. -/
structure Matches (links : List Link) (h k : Heap) : Prop where
  left : h.Reachable (links.map Link.target)
  right : k.Reachable (links.map Link.target)
  has : ∀ l ∈ links, h.Has l
  size : k.cells.size = h.cells.size
  realm : k.realm = h.realm
  displayDepth : k.displayDepth = h.displayDepth
  nodes : ∀ {l : Link}, h.Sees links l → k.node? l.target = h.node? l.target

variable {h k : Heap} {id : NodeId} {l : Link} {links more : List Link}

/-! ## Seeing -/

theorem Sees.of_all (hm : ∀ l ∈ more, h.Sees links l) (hs : h.Sees more l) : h.Sees links l := by
  induction hs with
  | permanent hp => exact .permanent hp
  | held hl => exact hm _ hl
  | stored _ hn hl ih => exact .stored ih hn hl

theorem Sees.append_left (hs : h.Sees links l) : h.Sees (more ++ links) l :=
  hs.of_all fun _ hm => .held (List.mem_append_right _ hm)

theorem Shrinks.sees (hh : Shrinks h k) (hr : k.Reachable (more.map Link.target))
    (hm : ∀ l ∈ more, h.Sees links l) (hs : k.Sees more l) :
    h.Sees links l ∧ k.node? l.target = h.node? l.target := by
  have hperm := permanent_congr hh.realm
  induction hs with
  | permanent hp =>
    exact ⟨.permanent (hperm ▸ hp),
      hh.node?_eq (hr.sound.counted.isLive (List.mem_append_left _ hp))⟩
  | held hl => exact ⟨hm _ hl, hh.node?_eq (hr.isLive (List.mem_map_of_mem hl))⟩
  | stored _ hn hl ih =>
    exact ⟨.stored ih.1 (hh.nodes hn) hl, hh.node?_eq (hr.sound.has_links hn _ hl).isLive⟩

theorem Sees.congr (hs : h.Sees links l) (hn : ∀ x, k.node? x = h.node? x)
    (hr : k.realm = h.realm) : k.Sees links l := by
  induction hs with
  | permanent hp => exact .permanent (permanent_congr hr ▸ hp)
  | held hl => exact .held hl
  | stored _ ho hl ih => exact .stored ih ((hn _).trans ho) hl

theorem Sees.of_enter_push {node : Node} (hhas : ∀ {l}, h.Sees links l → h.Has l)
    (hl : ∀ l ∈ node.links, h.Sees links l)
    (hs : ((h.push node).enter h.cells.size).Sees (node.linkTo h.cells.size :: links) l) :
    l.target = h.cells.size ∨ h.Sees links l := by
  induction hs with
  | permanent hp => exact Or.inr (.permanent (permanent_enter_push h node ▸ hp))
  | held hm =>
    rcases List.mem_cons.mp hm with rfl | hm
    · exact Or.inl (node.target_linkTo _)
    · exact Or.inr (.held hm)
  | stored _ hn hm ih =>
    rcases ih with he | hs
    · rw [node?_enter_push, if_pos he] at hn
      obtain rfl := Option.some.inj hn
      exact Or.inr (hl _ hm)
    · rw [(hhas hs).node?_enter_push] at hn
      exact Or.inr (.stored hs hn hm)

theorem Sees.of_setNode {node : Node} (hl : ∀ l ∈ node.links, h.Sees links l)
    (hs : (h.setNode id node).Sees links l) : h.Sees links l := by
  induction hs with
  | permanent hp => exact .permanent (permanent_congr (sameFrame_setNode h id node).realm ▸ hp)
  | held hm => exact .held hm
  | stored _ ho hm ih =>
    rw [node?_setNode] at ho
    split at ho
    · obtain rfl := Option.some.inj ho
      exact hl _ hm
    · exact .stored ih ho hm

namespace Matches

theorem refl (hr : h.Reachable (links.map Link.target)) (hl : ∀ l ∈ links, h.Has l) :
    Matches links h h := ⟨hr, hr, hl, rfl, rfl, rfl, fun _ => rfl⟩

theorem has_of_sees (ha : Matches links h k) (hs : h.Sees links l) : h.Has l := by
  cases hs with
  | permanent hm => exact ha.left.sound.has_permanent _ hm
  | held hm => exact ha.has l hm
  | stored _ hn hm => exact ha.left.sound.has_links hn l hm

theorem permanent (ha : Matches links h k) : k.permanent = h.permanent := permanent_congr ha.realm

theorem sees_right (ha : Matches links h k) (hs : h.Sees links l) : k.Sees links l := by
  induction hs with
  | permanent hm => exact .permanent (ha.permanent.symm ▸ hm)
  | held hm => exact .held hm
  | @stored a b node hs hn hm ih => exact .stored ih ((ha.nodes hs).trans hn) hm

theorem sees_left (ha : Matches links h k) (hs : k.Sees links l) : h.Sees links l := by
  induction hs with
  | permanent hm => exact .permanent (ha.permanent ▸ hm)
  | held hm => exact .held hm
  | @stored a b node _ hn hm ih => exact .stored ih ((ha.nodes ih).symm.trans hn) hm

theorem symm (ha : Matches links h k) : Matches links k h :=
  ⟨ha.right, ha.left, fun l hm => (ha.has l hm).congr (ha.nodes (.held hm)), ha.size.symm,
    ha.realm.symm, ha.displayDepth.symm, fun hs => (ha.nodes (ha.sees_left hs)).symm⟩

theorem perm (ha : Matches links h k) (hp : links.Perm more) : Matches more h k :=
  ⟨ha.left.perm (hp.map _), ha.right.perm (hp.map _), fun l hm => ha.has l (hp.mem_iff.mpr hm),
    ha.size, ha.realm, ha.displayDepth,
    fun hs => ha.nodes (hs.of_all fun _ hm => .held (hp.mem_iff.mpr hm))⟩

/-! ## Nodes die -/

/-- **Nodes may die on either side.** What is held afterwards could be seen before. -/
theorem shrinks {h' k' : Heap} (ha : Matches links h k) (hh : Shrinks h h') (hk : Shrinks k k')
    (hr : h'.Reachable (more.map Link.target)) (kr : k'.Reachable (more.map Link.target))
    (hm : ∀ l ∈ more, h.Sees links l) : Matches more h' k' := by
  refine ⟨hr, kr, fun l hl => ?_, ?_, ?_, ?_, fun {l} hs => ?_⟩
  · exact (ha.has_of_sees (hm l hl)).congr (hh.node?_eq (hr.isLive (List.mem_map_of_mem hl)))
  · rw [hk.size, hh.size, ha.size]
  · rw [hk.realm, hh.realm, ha.realm]
  · rw [hk.displayDepth, hh.displayDepth, ha.displayDepth]
  · have hkm : ∀ l ∈ more, k.Sees links l := fun l hl => ha.sees_right (hm l hl)
    have hsk : k'.Sees more l := by
      induction hs with
      | permanent hp =>
        refine .permanent ?_
        rwa [permanent_congr hk.realm, ha.permanent, ← permanent_congr hh.realm]
      | held hl => exact .held hl
      | stored hs hn hl ih =>
        obtain ⟨hsees, _⟩ := hh.sees hr hm hs
        obtain ⟨_, hsame⟩ := hk.sees kr hkm ih
        refine .stored ih ?_ hl
        rw [hsame, ha.nodes hsees, hh.nodes hn]
    obtain ⟨hsees, hsame⟩ := hh.sees hr hm hs
    rw [(hk.sees kr hkm hsk).2, hsame, ha.nodes hsees]

/-- **A collection of one side alone** is not seen. -/
theorem collect_left (ha : Matches links h k) : Matches links h.collect.1 k :=
  ha.shrinks ha.left.sound.collect.2 (Shrinks.refl k) ha.left.collect ha.right fun _ hm => .held hm

/-! ## Handles -/

theorem hold (ha : Matches links h k) (hm : ∀ l ∈ more, h.Sees links l) :
    Matches (more ++ links) (h.addHandles (more.map Link.target))
      (k.addHandles (more.map Link.target)) := by
  have hl : ∀ x ∈ more.map Link.target, h.isLive x = true := fun x hx => by
    obtain ⟨l, hl, rfl⟩ := List.mem_map.mp hx
    exact (ha.has_of_sees (hm l hl)).isLive
  have kl : ∀ x ∈ more.map Link.target, k.isLive x = true := fun x hx => by
    obtain ⟨l, hl', rfl⟩ := List.mem_map.mp hx
    rw [isLive_congr (ha.nodes (hm l hl'))]
    exact hl _ hx
  refine ha.shrinks (shrinks_addHandles h _) (shrinks_addHandles k _) ?_ ?_ fun l hl => ?_
  · rw [List.map_append]
    exact ha.left.holdAll _ hl
  · rw [List.map_append]
    exact ha.right.holdAll _ kl
  · exact (List.mem_append.mp hl).elim (hm l) fun hl => .held hl

theorem letGo {items : List Pending} (ha : Matches (more ++ links) h k)
    (hi : items.flatMap Pending.references = more.map Link.target) :
    Matches links (h.letGo items) (k.letGo items) := by
  have hl := ha.left
  have hr := ha.right
  rw [List.map_append, ← hi] at hl hr
  exact ha.shrinks hl.letGo.2 hr.letGo.2 hl.letGo.1 hr.letGo.1
    fun l hm => .held (List.mem_append_right _ hm)

theorem storedCount_of_kept (ha : Matches (more ++ links) h k) (hl : Kept h links l) :
    (0 < h.storedCount l.target ∨ l.target ∈ links.map Link.target) ∧
      (0 < k.storedCount l.target ∨ l.target ∈ links.map Link.target) := by
  rcases hl with hl | ⟨m, node, hs, hn, hl⟩
  · exact ⟨Or.inr (List.mem_map_of_mem hl), Or.inr (List.mem_map_of_mem hl)⟩
  · have hm : l.target ∈ node.references := (node.mem_references_iff _).mpr ⟨l, hl, rfl⟩
    refine ⟨Or.inl (storedCount_pos_iff.mpr ⟨_, node, hn, hm⟩),
      Or.inl (storedCount_pos_iff.mpr ⟨m.target, node, ?_, hm⟩)⟩
    rw [ha.nodes (Sees.append_left hs), hn]

theorem handOver (ha : Matches (more ++ links) h k) (hm : ∀ l ∈ more, Kept h links l) :
    Matches links (h.removeHandles (more.map Link.target))
      (k.removeHandles (more.map Link.target)) := by
  have hl := ha.left
  have hr := ha.right
  rw [List.map_append] at hl hr
  obtain ⟨hl, hh⟩ := hl.handOver _ fun x hx => by
    obtain ⟨l, hl, rfl⟩ := List.mem_map.mp hx
    exact (storedCount_of_kept ha (hm l hl)).1
  obtain ⟨hr, hk⟩ := hr.handOver _ fun x hx => by
    obtain ⟨l, hl, rfl⟩ := List.mem_map.mp hx
    exact (storedCount_of_kept ha (hm l hl)).2
  exact ha.shrinks hh hk hl hr fun l hm => .held (List.mem_append_right _ hm)

/-! ## Nodes -/

/-- The same node is put on both heaps and entered in the books, without a collection. -/
theorem enter_push (ha : Matches links h k) (node : Node) (hl : ∀ l ∈ node.links, h.Sees links l) :
    Matches (node.linkTo h.cells.size :: links) ((h.push node).enter h.cells.size)
      ((k.push node).enter k.cells.size) := by
  have hhas (l : Link) (hm : l ∈ node.links) : h.Has l := ha.has_of_sees (hl l hm)
  have khas (l : Link) (hm : l ∈ node.links) : k.Has l := (hhas l hm).congr (ha.nodes (hl l hm))
  have hframe := sameFrame_enter (h.push node) h.cells.size
  have kframe := sameFrame_enter (k.push node) k.cells.size
  refine ⟨?_, ?_, fun l hm => ?_, ?_, ?_, ?_, fun {l} hs => ?_⟩
  · rw [List.map_cons, Node.target_linkTo]
    exact ha.left.enter hhas
  · rw [List.map_cons, Node.target_linkTo, ← ha.size]
    exact ha.right.enter khas
  · rcases List.mem_cons.mp hm with rfl | hm
    · exact has_linkTo (by rw [node?_enter_push, if_pos rfl])
    · exact (ha.has l hm).enter_push node
  · rw [hframe.size, kframe.size, push, push, Array.size_push, Array.size_push, ha.size]
  · rw [hframe.realm, kframe.realm]
    exact ha.realm
  · rw [hframe.displayDepth, kframe.displayDepth]
    exact ha.displayDepth
  · have hor := hs.of_enter_push ha.has_of_sees hl
    rw [node?_enter_push, node?_enter_push, ha.size]
    split
    · rfl
    · next hne => exact ha.nodes (hor.resolve_left hne)

/-- **The same node is put on both heaps**, under the same name. -/
theorem alloc (ha : Matches links h k) (node : Node) (hl : ∀ l ∈ node.links, h.Sees links l) :
    Matches (node.linkTo h.cells.size :: links) (h.alloc node).2 (k.alloc node).2 := by
  have hhas (l : Link) (hm : l ∈ node.links) : h.Has l := ha.has_of_sees (hl l hm)
  have hreach := ha.left.alloc hhas
  have kreach := ha.right.alloc fun l hm => (hhas l hm).congr (ha.nodes (hl l hm))
  refine (ha.enter_push node hl).shrinks hreach.2 kreach.2 ?_ ?_ fun l hm => .held hm
  · rw [List.map_cons, Node.target_linkTo]
    exact hreach.1
  · rw [List.map_cons, Node.target_linkTo, ← ha.size]
    exact kreach.1

theorem node?_right {old : Node} (ha : Matches links h k) (hn : h.node? id = some old)
    (hs : h.Sees links (old.linkTo id)) : k.node? id = some old := by
  have hsame := ha.nodes hs
  rwa [Node.target_linkTo, hn] at hsame

theorem inherits (ha : Matches links h k) {a b : NodeId} (hs : h.Sees links (.object a))
    (hp : Relation.ReflTransGen k.Inherits a b) :
    Relation.ReflTransGen h.Inherits a b ∧ h.Sees links (.object b) := by
  induction hp with
  | refl => exact ⟨.refl, hs⟩
  | @tail b c _ hi ih =>
    obtain ⟨node, hn, hp⟩ := inherits_iff.mp hi
    have hn : h.node? b = some node := (ha.nodes ih.2).symm.trans hn
    refine ⟨ih.1.tail (inherits_iff.mpr ⟨node, hn, hp⟩), .stored ih.2 hn ?_⟩
    exact node.link_prototype hp

/-- **The same node is replaced on both heaps.** -/
theorem setNode {old node : Node} (ha : Matches links h k) (hn : h.node? id = some old)
    (hs : h.Sees links (old.linkTo id)) (hkind : node.linkTo id = old.linkTo id)
    (hl : ∀ l ∈ node.links, h.Sees links l)
    (hlost : ∀ l ∈ old.links, l ∈ node.links ∨ l ∈ links)
    (hproto : ∀ p, node.prototype? = some p →
      old.prototype? = some p ∨ ¬ Relation.ReflTransGen h.Inherits p id) :
    Matches links (h.setNode id node) (k.setNode id node) := by
  have kn := ha.node?_right hn hs
  have hrefs (g : Heap) : ∀ x ∈ old.references,
      x ∈ node.references ∨ x ∈ g.permanent ++ links.map Link.target := fun x hx => by
    obtain ⟨l, hm, rfl⟩ := (old.mem_references_iff x).mp hx
    rcases hlost l hm with hm | hm
    · exact Or.inl ((node.mem_references_iff _).mpr ⟨l, hm, rfl⟩)
    · exact Or.inr (List.mem_append_right _ (List.mem_map_of_mem hm))
  have hhas (l : Link) (hm : l ∈ node.links) : h.Has l := ha.has_of_sees (hl l hm)
  have hsize := sameFrame_setNode h id node
  have ksize := sameFrame_setNode k id node
  have hreach := ha.left.write hn hkind hhas (hrefs h) hproto
  have kreach := ha.right.write kn hkind
    (fun l hm => (hhas l hm).congr (ha.nodes (hl l hm))) (hrefs k) fun p hp => by
      rcases hproto p hp with ho | hno
      · exact Or.inl ho
      · exact Or.inr fun hpath => hno (ha.inherits (hl _ (node.link_prototype hp)) hpath).1
  refine ⟨hreach, kreach, fun l hm => ?_, ?_, ?_, ?_, fun {l} hs => ?_⟩
  · exact (ha.has l hm).setNode hn hkind
  · rw [hsize.size, ksize.size, ha.size]
  · rw [hsize.realm, ksize.realm, ha.realm]
  · rw [hsize.displayDepth, ksize.displayDepth, ha.displayDepth]
  · have hseen := hs.of_setNode hl
    rw [node?_setNode, node?_setNode, isLive_of_node? hn, isLive_of_node? kn]
    split
    · rfl
    · exact ha.nodes hseen

/-! ## What is not in the cells -/

theorem congr {h' k' : Heap} (ha : Matches links h k) (hr : h'.Reachable (links.map Link.target))
    (kr : k'.Reachable (links.map Link.target)) (hn : ∀ x, h'.node? x = h.node? x)
    (kn : ∀ x, k'.node? x = k.node? x) (hrealm : h'.realm = h.realm) (krealm : k'.realm = k.realm)
    (hsize : k'.cells.size = h'.cells.size) (hdepth : k'.displayDepth = h'.displayDepth) :
    Matches links h' k' :=
  ⟨hr, kr, fun l hm => (ha.has l hm).congr (hn _), hsize, by rw [krealm, hrealm, ha.realm], hdepth,
    fun hs => by rw [hn, kn, ha.nodes (hs.congr (fun x => (hn x).symm) hrealm.symm)]⟩

theorem borrow (ha : Matches links h k) (ids others : List NodeId) :
    Matches links { h with borrowed := ids } { k with borrowed := others } :=
  ha.congr (ha.left.borrow ids) (ha.right.borrow others) (fun _ => rfl) (fun _ => rfl) rfl rfl
    ha.size ha.displayDepth

theorem placedAt (ha : Matches links h k) (p q : Places Nat) :
    Matches links (h.placedAt p) (k.placedAt q) :=
  ha.congr (ha.left.place p) (ha.right.place q) (fun _ => rfl) (fun _ => rfl) rfl rfl
    ha.size ha.displayDepth

theorem configure (ha : Matches links h k) (threshold other depth : Nat) :
    Matches links (h.configure ⟨threshold, depth⟩) (k.configure ⟨other, depth⟩) :=
  ha.congr (ha.left.configure _) (ha.right.configure _) (fun _ => rfl) (fun _ => rfl) rfl rfl
    ha.size rfl

theorem install {r : Realm} (ha : Matches (r.references.map .object ++ links) h k)
    (hnone : h.realm = none) :
    Matches links { h with realm := some r } { k with realm := some r } := by
  have hrefs : (r.references.map Link.object).map Link.target = r.references := by
    simp [Function.comp_def]
  have hl := ha.left
  have hr := ha.right
  rw [List.map_append, hrefs] at hl hr
  have hhas (id : NodeId) (hm : id ∈ r.references) : Link.object id ∈ r.references.map Link.object :=
    List.mem_map_of_mem hm
  refine ⟨hl.install hnone fun id hm => ?_, hr.install (ha.realm.trans hnone) fun id hm => ?_,
    fun l hm => ha.has l (List.mem_append_right _ hm), ha.size, rfl, ha.displayDepth,
    fun {l} hs => ha.nodes ?_⟩
  · exact ha.has _ (List.mem_append_left _ (hhas id hm))
  · exact ha.symm.has _ (List.mem_append_left _ (hhas id hm))
  · induction hs with
    | permanent hp =>
      refine .held (List.mem_append_left _ (hhas _ ?_))
      simpa [Heap.permanent] using hp
    | held hm => exact .held (List.mem_append_right _ hm)
    | stored _ hn hm ih => exact .stored ih hn hm

/-! ## Replacing with release -/

/-- While a node is replaced, and what is lost by that is pending, the heaps match. -/
theorem opened {old node : Node} {lost : List Pending} {gone : List Link}
    (ha : Matches links h k) (hn : h.node? id = some old) (hs : h.Sees links (old.linkTo id))
    (hkind : node.linkTo id = old.linkTo id) (hl : ∀ l ∈ node.links, h.Sees links l)
    (hg : lost.flatMap Pending.references = gone.map Link.target)
    (hgone : ∀ l ∈ gone, h.Sees links l)
    (hlost : ∀ l ∈ old.links, l ∈ node.links ∨ l ∈ gone ++ links)
    (hproto : ∀ p, node.prototype? = some p →
      old.prototype? = some p ∨ ¬ Relation.ReflTransGen h.Inherits p id) :
    Matches (gone ++ links) (h.opened id node lost) (k.opened id node lost) := by
  have hnode (x : NodeId) : (h.addHandles (gone.map Link.target)).node? x = h.node? x :=
    node?_addHandles _ x h
  have hframe := sameFrame_addHandles (gone.map Link.target) h
  have hsees {l : Link} (hs : h.Sees links l) :
      (h.addHandles (gone.map Link.target)).Sees (gone ++ links) l :=
    Sees.append_left (hs.congr hnode hframe.realm)
  have hwrite := (ha.hold hgone).setNode ((hnode id).trans hn) (hsees hs) hkind
    (fun l hm => hsees (hl l hm)) hlost
    fun p hp => (hproto p hp).imp_right fun hno hpath => hno <| by
      refine Relation.ReflTransGen.mono (fun a b hi => ?_) p id hpath
      obtain ⟨other, ho, hp⟩ := inherits_iff.mp hi
      exact inherits_iff.mpr ⟨other, (hnode a).symm.trans ho, hp⟩
  simp only [Heap.opened, holdPending, hg]
  exact hwrite.borrow _ _

/-- **A node is replaced, and what is lost by that is let go.** A node that is held is still there
then. -/
theorem replaceNode {old node : Node} {lost : List Pending} {gone : List Link}
    (hopen : Matches (gone ++ links) (h.opened id node lost) (k.opened id node lost))
    (hn : h.node? id = some old)
    (hg : lost.flatMap Pending.references = gone.map Link.target) :
    Matches links (h.replaceNode id node lost) (k.replaceNode id node lost) ∧
      (old.linkTo id ∈ links → (h.replaceNode id node lost).node? id = some node) := by
  refine ⟨(hopen.letGo hg).borrow _ _, fun hm => ?_⟩
  -- Nodes only die while the lost items are let go, and this one is held.
  have hheld : id ∈ links.map Link.target := List.mem_map.mpr ⟨_, hm, old.target_linkTo id⟩
  have hleft := hopen.left
  rw [List.map_append, ← hg] at hleft
  obtain ⟨hr, hk⟩ := hleft.letGo
  refine (hk.node?_eq (hr.isLive hheld)).trans ?_
  exact node?_setNode_self ((node?_addHandles _ id h).trans hn)

end Matches

end Heap

end ScriptCore
