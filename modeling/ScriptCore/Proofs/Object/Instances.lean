import ScriptCore.Proofs.Object.Replacing
import ScriptCore.Proofs.Session.Prototypes

/-!
# Instances

An object is an instance of a function if an object above it on its chain of prototypes has a plain
field `constructor` of its own that holds the function (`Heap.Sound.isInstanceOf_iff`).

When an object is given another prototype, its chain goes on as the chain of that, and nothing on the
way has changed (`Heap.Relinked.path`). So it becomes an instance of the function that its new
prototype has as `constructor`. A link that would close a cycle is not made, and then nothing changes
for any object and any function (`Heap.Reachable.instances_follow`).
-/

namespace ScriptCore

namespace Heap

variable {h k : Heap} {o p c x : NodeId} {held : List NodeId} {ob : Object}

/-! ## The test -/

theorem Sound.mem_tail_chain_iff (hs : h.Sound held) :
    x ∈ (h.chain o).tail ↔ Relation.TransGen h.Inherits o x := by
  rw [Relation.TransGen.head'_iff]
  cases ho : h.object? o with
  | none =>
    rw [chain, chainFrom_of_not_object ho]
    refine ⟨fun hm => absurd hm List.not_mem_nil, ?_⟩
    rintro ⟨p, hp, -⟩
    rw [Inherits, prototype?, ho] at hp
    cases hp
  | some ob =>
    have hproto : h.prototype? o = ob.prototype := by rw [prototype?, ho, Option.bind_some]
    rw [hs.tail_chain ho]
    cases hp : ob.prototype with
    | none =>
      rw [chainFrom_none]
      refine ⟨fun hm => absurd hm List.not_mem_nil, ?_⟩
      rintro ⟨p, hi, -⟩
      rw [Inherits, hproto, hp] at hi
      cases hi
    | some p =>
      have hi : h.Inherits o p := hproto.trans hp
      rw [← chain, hs.mem_chain_iff]
      refine ⟨fun hm => ⟨p, hi, hm.2⟩, ?_⟩
      rintro ⟨q, hq, hpath⟩
      obtain rfl : p = q := Option.some.inj (hi.symm.trans hq)
      exact ⟨has_object_iff.mp (hs.has_of_inherits hi), hpath⟩

/-- **An instance** has the function as the `constructor` of some object above it. -/
theorem Sound.isInstanceOf_iff (hs : h.Sound held) :
    h.isInstanceOf o c = true ↔ ∃ link, Relation.TransGen h.Inherits o link ∧
      h.ownPlainField? link "constructor" = some (.object c) := by
  simp only [isInstanceOf, List.any_eq_true, beq_iff_eq, hs.mem_tail_chain_iff, ownPlainField?]

theorem Sound.exists_constructor (hs : h.Sound held)
    (hc : h.lookupField p "constructor" = .object c) :
    ∃ link, Relation.ReflTransGen h.Inherits p link ∧
      h.ownPlainField? link "constructor" = some (.object c) := by
  rw [lookupField, if_neg (by decide), inheritedField] at hc
  cases hfound : (h.chain p).findSome? fun link =>
      (h.object? link).bind fun o => o.ownField? "constructor" with
  | none =>
    rw [hfound] at hc
    cases hc
  | some v =>
    rw [hfound] at hc
    obtain ⟨link, hlink, hv⟩ := List.exists_of_findSome?_eq_some hfound
    obtain ⟨ol, hol, hown⟩ := Option.bind_eq_some_iff.mp hv
    rw [Object.ownField?, if_neg (by decide), Option.none_or] at hown
    refine ⟨link, (hs.mem_chain_iff.mp hlink).2, ?_⟩
    rw [ownPlainField?, hol, Option.bind_some, hown]
    exact congrArg some hc

theorem Sound.isLive_of_ownPlainField? {key : String} (hs : h.Sound held)
    (hx : h.ownPlainField? x key = some (.object c)) : h.isLive c = true := by
  obtain ⟨ox, hox, hget⟩ := Option.bind_eq_some_iff.mp hx
  have hc : Link.object c ∈ ox.links := Object.mem_links_iff.mpr
    (Or.inr (Or.inl ⟨_, Fields.mem_values_of_get? hget, List.mem_singleton.mpr rfl⟩))
  exact (hs.has_links (object?_eq_some_iff.mp hox) _ hc).isLive

/-! ## Another prototype -/

/-- **After an object was given another prototype**, what is alive is as before but for that object,
which is otherwise as before too. -/
structure Relinked (h k : Heap) (held : List NodeId) (o p : NodeId) (ob : Object) : Prop where
  reachable : k.Reachable held
  frame : SameFrame h k
  nodes : ∀ x, k.isLive x = true →
    k.node? x = if x = o then some (.object { ob with prototype := some p }) else h.node? x

/-- A link that closes no cycle is made. -/
theorem Reachable.relinked (hr : h.Reachable held) (ho : h.object? o = some ob)
    (hp : ∃ q, h.object? p = some q) (hnot : ¬ Relation.ReflTransGen h.Inherits p o) :
    Relinked h ((HeapM.assignField o protoKey (.object p)).run h).2 held o p ob := by
  have hn := object?_eq_some_iff.mp ho
  have hhas := hr.sound.has_links hn
  let linked : Node := .object { ob with prototype := some p }
  let lost := ob.prototype.toList.map Pending.reference
  have hcycle : ¬ h.closesCycle o (some p) = true := by
    intro hc
    obtain ⟨q, hq, -, hpath⟩ := hr.sound.closesCycle_iff.mp hc
    exact hnot (Option.some.inj hq ▸ hpath)
  have hlost : lost.flatMap Pending.references =
      (ob.prototype.toList.map Link.object).map Link.target :=
    Agree.references_map_reference_toList _
  have hgone {l : Link} (hl : l ∈ ob.prototype.toList.map Link.object) : l ∈ ob.links := by
    obtain ⟨q, hq, rfl⟩ := List.mem_map.mp hl
    exact Object.mem_links_iff.mpr (Or.inl ⟨q, Option.mem_toList.mp hq, rfl⟩)
  have hopen : (h.opened o linked lost).Reachable (lost.flatMap Pending.references ++ held) := by
    refine hr.opened hn rfl (fun l hl => ?_) (fun q hq => ?_) (fun y hy => ?_) fun y hy => ?_
    · rcases Object.links_prototype hl with hl | hl
      · obtain rfl := List.mem_singleton.mp hl
        exact has_object_iff.mpr hp
      · exact hhas l hl
    · obtain rfl : p = q := Option.some.inj hq
      exact Or.inr hnot
    · rw [hlost] at hy
      obtain ⟨l, hl, rfl⟩ := List.mem_map.mp hy
      exact (hhas l (hgone hl)).isLive
    · obtain ⟨l, hl, rfl⟩ := ((Node.object ob).mem_references_iff y).mp hy
      rcases Object.links_prototype (o := { ob with prototype := some p }) hl with hl | hl
      · exact Or.inr (hlost ▸ List.mem_map_of_mem hl)
      · exact Or.inl ((linked.mem_references_iff _).mpr ⟨l, hl, rfl⟩)
  have hrun : ((HeapM.assignField o protoKey (.object p)).run h).2 =
      h.replaceNode o linked lost := by
    have hset := run_setPrototype o (some p) h
    rw [if_neg hcycle, ho] at hset
    exact congrArg Prod.snd hset
  obtain ⟨hk, hframe, hnodes⟩ := Reachable.node?_replaceNode hn hopen
  rw [hrun]
  exact ⟨hk, hframe, hnodes⟩

namespace Relinked

variable (hk : Relinked h k held o p ob)

include hk

theorem object?_self (hlive : k.isLive o = true) :
    k.object? o = some { ob with prototype := some p } :=
  object?_eq_some_iff.mpr ((hk.nodes o hlive).trans (if_pos rfl))

theorem object?_ne (hlive : k.isLive x = true) (hne : x ≠ o) : k.object? x = h.object? x := by
  rw [object?, object?, hk.nodes x hlive, if_neg hne]

theorem reachedFrom (hf : h.ReachedFrom held o) : k.ReachedFrom held o := by
  obtain ⟨root, hroot, hpath⟩ := hf
  rw [← permanent_congr hk.frame.realm] at hroot
  -- only what lies beyond the object may be lost, and then the way has come by it
  have hway (y : NodeId) (hy : Relation.ReflTransGen h.Stores root y) :
      k.ReachedFrom held y ∨ k.ReachedFrom held o := by
    induction hy with
    | refl => exact Or.inl ⟨root, hroot, .refl⟩
    | @tail a b _ hab ih =>
      rcases ih with ha | ho
      · by_cases he : a = o
        · exact Or.inr (he ▸ ha)
        · obtain ⟨node, hn, hm⟩ := hab
          have hn : k.node? a = some node :=
            (hk.nodes a (hk.reachable.isLive_of_reachedFrom ha)).trans ((if_neg he).trans hn)
          obtain ⟨start, hstart, hp⟩ := ha
          exact Or.inl ⟨start, hstart, hp.tail ⟨node, hn, hm⟩⟩
      · exact Or.inr ho
  exact (hway o hpath).elim id id

/-- **The chain of the new prototype** has stayed. -/
theorem path (hlive : k.isLive o = true) (hnot : ¬ Relation.ReflTransGen h.Inherits p o)
    (hpath : Relation.ReflTransGen h.Inherits p x) :
    Relation.TransGen k.Inherits o x ∧ k.object? x = h.object? x := by
  have hinherits : k.Inherits o p := inherits_of_object? (hk.object?_self hlive) rfl
  have hfound {a b : NodeId} (hi : k.Inherits a b) (hb : Relation.ReflTransGen h.Inherits p b) :
      k.object? b = h.object? b := by
    have hb : b ≠ o := fun he => hnot (he ▸ hb)
    exact hk.object?_ne (hk.reachable.sound.has_of_inherits hi).isLive hb
  induction hpath with
  | refl => exact ⟨.single hinherits, hfound hinherits .refl⟩
  | @tail a b ha hab ih =>
    have hi : k.Inherits a b := by
      rw [Inherits, prototype?, ih.2]
      exact hab
    exact ⟨ih.1.tail hi, hfound hi (ha.tail hab)⟩

theorem isFunction_eq (ho : h.object? o = some ob) (hlive : k.isLive x = true) :
    k.isFunction (.object x) = h.isFunction (.object x) := by
  have hkind : k.kind? (.object x) = h.kind? (.object x) := by
    show (k.object? x).map Object.kind = (h.object? x).map Object.kind
    by_cases he : x = o
    · rw [he, ho, hk.object?_self (he ▸ hlive)]
      rfl
    · rw [hk.object?_ne hlive he]
  rw [isFunction, isFunction, hkind]

end Relinked

/-- **Instances follow the chain**, on every heap that a program can come to. An object is an
instance of a function if some object above it has a plain field `constructor` of its own that holds
the function. So if `constructor` of an object is a function, as it is of the object in the field
`prototype` of a new function, then whatever is linked to that object is an instance of the function,
unless it is on the chain of that object. If it is, the assignment changes nothing. -/
theorem Reachable.instances_follow (hr : h.Reachable held) :
    (∀ o c, h.isInstanceOf o c = true ↔ ∃ link, Relation.TransGen h.Inherits o link ∧
      h.ownPlainField? link "constructor" = some (.object c)) ∧
    ∀ o ob c p, h.ReachedFrom held o → h.object? o = some ob →
      h.lookupField p "constructor" = .object c →
        let k := ((HeapM.assignField o protoKey (.object p)).run h).2
        (¬ Relation.ReflTransGen h.Inherits p o → k.isInstanceOf o c = true ∧
          (h.isFunction (.object c) = true → k.isInstance (.object o) (.object c) = true)) ∧
        (Relation.ReflTransGen h.Inherits p o → k = h ∧
          (∀ x d, k.isInstanceOf x d = h.isInstanceOf x d) ∧
          ∀ v w, k.isInstance v w = h.isInstance v w) := by
  refine ⟨fun o c => hr.sound.isInstanceOf_iff, fun o ob c p hf ho hc => ⟨fun hnot => ?_, fun hon => ?_⟩⟩
  · obtain ⟨link, hpath, hfield⟩ := hr.sound.exists_constructor hc
    have hp : ∃ q, h.object? p = some q := by
      refine Option.ne_none_iff_exists'.mp fun hnone => ?_
      rw [lookupField, if_neg (by decide), inheritedField, chain, chainFrom_of_not_object hnone] at hc
      cases hc
    have hk := hr.relinked ho hp hnot
    have hlive := hk.reachable.isLive_of_reachedFrom (hk.reachedFrom hf)
    obtain ⟨habove, hsame⟩ := hk.path hlive hnot hpath
    rw [ownPlainField?, ← hsame, ← ownPlainField?] at hfield
    have hinstance := hk.reachable.sound.isInstanceOf_iff.mpr ⟨link, habove, hfield⟩
    refine ⟨hinstance, fun hfunction => ?_⟩
    rw [isInstance, hinstance, Bool.and_true,
      hk.isFunction_eq ho (hk.reachable.sound.isLive_of_ownPlainField? hfield)]
    exact hfunction
  · have hp : ∃ q, h.object? p = some q := by
      rcases Relation.ReflTransGen.cases_head hon with rfl | ⟨q, hq, -⟩
      · exact ⟨ob, ho⟩
      · obtain ⟨q, hq, -⟩ := Option.bind_eq_some_iff.mp hq
        exact ⟨q, hq⟩
    have hsame : ((HeapM.assignField o protoKey (.object p)).run h).2 = h := by
      refine assignField_ignored (by simp) fun q hq => ?_
      obtain rfl := Value.object.inj hq
      exact (hr.sound.chainsEnd.refused_iff o p ⟨ob, ho⟩ hp).mpr hon
    rw [hsame]
    exact ⟨rfl, fun _ _ => rfl, fun _ _ => rfl⟩

/-- A function, the object in its field `prototype`, and another object. -/
def constructing : List Step :=
  [⟨.function (.create "Point" [] true (.native .undef)), some "Point", none⟩,
    ⟨.object (.lookup (.register "Point") "prototype"), some "plane", none⟩,
    ⟨.store (.keep (.object [])), some "point", none⟩]

/-- One object becomes an instance. The other cannot be put on its own chain. -/
theorem instances_follow_point :
    ((HeapM.assignField 6 protoKey (.object 5)).run
        (Session.initial.run constructing).2.heap).2.isInstance (.object 6) (.object 4) = true ∧
      ((HeapM.assignField 5 protoKey (.object 5)).run (Session.initial.run constructing).2.heap).2 =
        (Session.initial.run constructing).2.heap := by
  have hr := Session.reachable_run constructing
  have hheld : (Session.initial.run constructing).2.links.map Link.target = [4, 5, 6] := by
    decide +kernel
  rw [hheld] at hr
  obtain ⟨plane, hplane⟩ : ∃ o, (Session.initial.run constructing).2.heap.object? 5 = some o :=
    Option.isSome_iff_exists.mp (by decide +kernel)
  obtain ⟨point, hpoint⟩ : ∃ o, (Session.initial.run constructing).2.heap.object? 6 = some o :=
    Option.isSome_iff_exists.mp (by decide +kernel)
  have hconstructor : (Session.initial.run constructing).2.heap.lookupField 5 "constructor" =
      .object 4 := by decide +kernel
  have hfree : ¬ Relation.ReflTransGen (Session.initial.run constructing).2.heap.Inherits 5 6 := by
    intro hpath
    have hcycle := hr.sound.closesCycle_iff.mpr ⟨5, rfl, ⟨plane, hplane⟩, hpath⟩
    exact absurd hcycle (by decide +kernel)
  obtain ⟨-, hfollow⟩ := Reachable.instances_follow hr
  exact ⟨((hfollow 6 point 4 5 ⟨6, by simp, .refl⟩ hpoint hconstructor).1 hfree).2
      (by decide +kernel),
    ((hfollow 5 plane 4 5 ⟨5, by simp, .refl⟩ hplane hconstructor).2 .refl).1⟩

end Heap

end ScriptCore
