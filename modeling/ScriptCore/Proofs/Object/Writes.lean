import Mathlib
import ScriptCore.Proofs.Agreement.WholeSteps
import ScriptCore.Proofs.Object.Replacing

/-!
# What a write to a field changes

A write to a plain field of an object changes that object and no other that can still be reached
(`Heap.Reachable.node?_replaceNode`); what the object has lost may die, and other garbage with it. So
the chains of prototypes stay as they are, and reading a field of any object gives what it gave
before, unless the chain of the object leads to the one written and the field **shows** there
(`Heap.Shows`): no nearer object has a field of that name, and no length of its own hides it.
-/

namespace ScriptCore

namespace Heap

variable {h k : Heap} {id p : NodeId} {held : List NodeId} {o : Object} {key name : String}
  {v : Value}

/-! ## Writing a plain field -/

/-- **After a write**, what can be reached is as before, but for the object written, which has the
field now and is otherwise as before too. -/
structure Wrote (h k : Heap) (held : List NodeId) (id : NodeId) (o : Object) (key : String)
    (v : Value) : Prop where
  object : h.object? id = some o
  size : k.cells.size = h.cells.size
  reachable : k.Reachable held
  nodes : ∀ p, k.ReachedFrom held p → k.node? p =
    if p = id then some (.object { o with fields := o.fields.insert key v }) else h.node? p

theorem wrote_insertField (hr : h.Reachable held) (ho : h.object? id = some o)
    (hv : ∀ x, v = .object x → ∃ ox, h.object? x = some ox) (key : String) :
    Wrote h ((HeapM.insertField id key v).run h).2 held id o key v := by
  obtain ⟨hk, hframe, hnodes⟩ := hr.node?_insertField ho hv key
  exact ⟨ho, hframe.size, hk, fun p hp => hnodes p (hk.isLive_of_reachedFrom hp)⟩

theorem run_assignField (v : Value) (hkey : key ≠ protoKey)
    (hlength : key = "length" → h.isArray (.object id) = false) :
    (HeapM.assignField id key v).run h = (HeapM.insertField id key v).run h := by
  by_cases hk : key = "length"
  · subst hk
    unfold HeapM.assignField
    rw [if_neg hkey]
    show StateT.run (if (decide ("length" = "length") && h.isArray (.object id)) = true
      then _ else _) h = _
    rw [hlength rfl, Bool.and_false, if_neg Bool.false_ne_true]
  · rw [HeapM.assignField_eq_insertField id v hkey hk]

/-! ## Reading afterwards -/

/-- A plain field of an object **shows** at an object: the chain of that leads to it, nothing nearer
has a field of that name or answers for it as a length, and neither does the object's own length. -/
def Shows (h : Heap) (id : NodeId) (key : String) (p : NodeId) : Prop :=
  ∃ before after, h.chain p = before ++ id :: after ∧
    (∀ link ∈ before, ∀ o, h.object? link = some o →
      o.fields.get? key = none ∧ (key = "length" → o.ownLength? = none)) ∧
    (key = "length" → ∀ o, h.object? id = some o → o.ownLength? = none)

theorem ownField?_eq_none_iff :
    o.ownField? key = none ↔ o.fields.get? key = none ∧ (key = "length" → o.ownLength? = none) := by
  rw [Object.ownField?, Option.or_eq_none_iff, and_comm]
  split <;> simp_all

theorem ownField?_insert_self (o : Object) (key : String) (v : Value) :
    ({ o with fields := o.fields.insert key v } : Object).ownField? key =
      (if key = "length" then o.ownLength? else none).or (some v) := by
  rw [Object.ownField?, Fields.get?_insert_self]
  rfl

theorem ownField?_insert_ne (o : Object) (v : Value) (hne : name ≠ key) :
    ({ o with fields := o.fields.insert key v } : Object).ownField? name = o.ownField? name := by
  rw [Object.ownField?, Object.ownField?, Fields.get?_insert_ne _ _ hne]
  rfl

def answer? (h : Heap) (name : String) (link : NodeId) : Option Value :=
  (h.object? link).bind fun o => o.ownField? name

theorem shows_of_findSome? {before after : List NodeId} (hchain : h.chain p = before ++ id :: after)
    (hnone : before.findSome? (h.answer? key) = none)
    (hlength : key = "length" → ∀ o, h.object? id = some o → o.ownLength? = none) :
    h.Shows id key p := by
  refine ⟨before, after, hchain, fun link hl o ho => ?_, hlength⟩
  have hlink := List.findSome?_eq_none_iff.mp hnone link hl
  rw [answer?, ho] at hlink
  exact ownField?_eq_none_iff.mp hlink

namespace Wrote

variable (hw : Wrote h k held id o key v)

include hw

theorem object?_self (hp : k.ReachedFrom held id) :
    k.object? id = some { o with fields := o.fields.insert key v } :=
  object?_eq_some_iff.mpr ((hw.nodes id hp).trans (if_pos rfl))

theorem object?_ne (hp : k.ReachedFrom held p) (hne : p ≠ id) : k.object? p = h.object? p := by
  rw [object?, object?, hw.nodes p hp, if_neg hne]

/-- **Chains stay**, and all of a chain can be reached. -/
theorem chain_eq (hp : k.ReachedFrom held p) :
    k.chain p = h.chain p ∧ ∀ x ∈ h.chain p, k.ReachedFrom held x := by
  have hproto (x : NodeId) (hx : k.ReachedFrom held x) :
      (k.object? x).map Object.prototype = (h.object? x).map Object.prototype := by
    by_cases hid : x = id
    · subst hid
      rw [hw.object?_self hx, hw.object]
      rfl
    · rw [hw.object?_ne hx hid]
  rw [chain, chain, hw.size]
  refine chainFrom_congr hproto (fun x y hx hxy => ?_) _ _ fun x hx => Option.some.inj hx ▸ hp
  have hxy : k.Inherits x y := by
    obtain ⟨ox, ho, hy⟩ := Option.bind_eq_some_iff.mp hxy
    have hmap := hproto x hx
    rw [ho] at hmap
    obtain ⟨o', ho', he⟩ := Option.map_eq_some_iff.mp hmap
    exact inherits_of_object? ho' (he.trans hy)
  obtain ⟨node, hn, hp⟩ := inherits_iff.mp hxy
  obtain ⟨root, hroot, hpath⟩ := hx
  have hm : y ∈ node.references := (node.mem_references_iff y).mpr ⟨_, node.link_prototype hp, rfl⟩
  exact ⟨root, hroot, hpath.tail ⟨node, hn, hm⟩⟩

theorem answer?_eq (hp : k.ReachedFrom held p) (hne : name ≠ key ∨ p ≠ id) :
    k.answer? name p = h.answer? name p := by
  by_cases hid : p = id
  · subst hid
    rw [answer?, answer?, hw.object?_self hp, hw.object]
    exact ownField?_insert_ne o v (hne.resolve_right fun hn => hn rfl)
  · rw [answer?, answer?, hw.object?_ne hp hid]

theorem answer?_self (hp : k.ReachedFrom held id) :
    k.answer? key id = (if key = "length" then o.ownLength? else none).or (some v) := by
  rw [answer?, hw.object?_self hp]
  exact ownField?_insert_self o key v

theorem not_mem_before {before after : List NodeId} (hp : k.ReachedFrom held p)
    (hchain : h.chain p = before ++ id :: after) : id ∉ before := by
  have hnodup : (h.chain p).Nodup := by
    rw [← (hw.chain_eq hp).1]
    exact hw.reachable.sound.nodup_chainFrom _ _
  rw [hchain] at hnodup
  exact fun hm => (List.nodup_append.mp hnodup).2.2 id hm id List.mem_cons_self rfl

/-- **Where the written field shows**, it is read. -/
theorem lookupField_of_shows (hkey : key ≠ protoKey) (hp : k.ReachedFrom held p)
    (hs : h.Shows id key p) : k.lookupField p key = v := by
  obtain ⟨heq, hall⟩ := hw.chain_eq hp
  obtain ⟨before, after, hchain, hbefore, hself⟩ := hs
  rw [hchain] at heq hall
  have hnone : before.findSome? (k.answer? key) = none := by
    refine List.findSome?_eq_none_iff.mpr fun x hx => ?_
    have hne : x ≠ id := fun he => hw.not_mem_before hp hchain (he ▸ hx)
    rw [hw.answer?_eq (hall x (List.mem_append_left _ hx)) (Or.inr hne), answer?]
    cases ho : h.object? x with
    | none => rfl
    | some ox => exact ownField?_eq_none_iff.mpr (hbefore x hx ox ho)
  have hanswer : k.answer? key id = some v := by
    rw [hw.answer?_self (hall id (by simp))]
    split
    · next hk => rw [hself hk o hw.object, Option.none_or]
    · rfl
  rw [lookupField, if_neg hkey, inheritedField, heq]
  show ((before ++ id :: after).findSome? (k.answer? key)).getD .undefined = v
  rw [List.findSome?_append, hnone, Option.none_or, List.findSome?_cons, hanswer]
  rfl

/-- A chain that leads to the written object, where the field does not show, answers as before:
something nearer answers, or the object itself does, with its length. -/
theorem findSome?_answer?_eq {before after : List NodeId} (hp : k.ReachedFrom held p)
    (hchain : h.chain p = before ++ id :: after) (hs : ¬h.Shows id key p) :
    (before ++ id :: after).findSome? (k.answer? key) =
      (before ++ id :: after).findSome? (h.answer? key) := by
  have hall := (hw.chain_eq hp).2
  rw [hchain] at hall
  have hbefore : before.findSome? (k.answer? key) = before.findSome? (h.answer? key) :=
    findSome?_congr fun x hx => hw.answer?_eq (hall x (List.mem_append_left _ hx))
      (Or.inr fun he => hw.not_mem_before hp hchain (he ▸ hx))
  rw [List.findSome?_append, List.findSome?_append, hbefore]
  cases hfound : before.findSome? (h.answer? key) with
  | some a => rfl
  | none =>
    have hlength : ∃ l, key = "length" ∧ o.ownLength? = some l := by
      by_contra hno
      refine hs (shows_of_findSome? hchain hfound fun hk o' ho' => ?_)
      obtain rfl := Option.some.inj (hw.object.symm.trans ho')
      exact Option.eq_none_iff_forall_ne_some.mpr fun l hl => hno ⟨l, hk, hl⟩
    obtain ⟨l, hk, hl⟩ := hlength
    have hafter : k.answer? key id = some l := by
      rw [hw.answer?_self (hall id (by simp)), if_pos hk, hl, Option.some_or]
    have hself : h.answer? key id = some l := by
      rw [answer?, hw.object, Option.bind_some, Object.ownField?, if_pos hk, hl, Option.some_or]
    rw [List.findSome?_cons, List.findSome?_cons, hafter, hself]

/-- **Where it does not show**, and under any other name, what was read before is read. -/
theorem lookupField_eq (hname : name ≠ protoKey) (hp : k.ReachedFrom held p)
    (hs : ¬(name = key ∧ h.Shows id key p)) : k.lookupField p name = h.lookupField p name := by
  obtain ⟨heq, hall⟩ := hw.chain_eq hp
  have hfind : (h.chain p).findSome? (k.answer? name) = (h.chain p).findSome? (h.answer? name) := by
    by_cases hid : name = key ∧ id ∈ h.chain p
    · obtain ⟨rfl, hid⟩ := hid
      obtain ⟨before, after, hchain⟩ := List.append_of_mem hid
      have hanswers := hw.findSome?_answer?_eq hp hchain fun hshows => hs ⟨rfl, hshows⟩
      rwa [hchain]
    · refine findSome?_congr fun x hx => hw.answer?_eq (hall x hx) ?_
      exact (not_and_or.mp hid).imp_right fun hnot he => hnot (he ▸ hx)
  rw [lookupField, lookupField, if_neg hname, if_neg hname, inheritedField, inheritedField, heq]
  exact congrArg (Option.getD · .undefined) hfind

end Wrote

/-- **What an assignment to a field changes.** On every heap that a program can come to, a plain field
of an object is assigned: its name is not `__proto__`, and not `length` if the object is an array.
Afterwards, of all objects that can be reached, those see the new value under its name at which the
field shows. Every other read, whatever its object and its name, gives what it gave before, and no
node that can be reached has changed but the object itself, and that in this field only. -/
theorem assignField_local (hr : h.Reachable held) (ho : h.object? id = some o) (key : String)
    (v : Value) (hv : ∀ x, v = .object x → ∃ ox, h.object? x = some ox) (hkey : key ≠ protoKey)
    (hlength : key = "length" → h.isArray (.object id) = false) :
    let k := ((HeapM.assignField id key v).run h).2
    k.Reachable held ∧
    (∀ p name, k.ReachedFrom held p → name ≠ protoKey →
      (name = key ∧ h.Shows id key p → k.lookupField p name = v) ∧
      (¬(name = key ∧ h.Shows id key p) → k.lookupField p name = h.lookupField p name)) ∧
    (∀ p, k.ReachedFrom held p → p ≠ id → k.node? p = h.node? p) ∧
    (k.ReachedFrom held id → k.object? id = some { o with fields := o.fields.insert key v }) := by
  intro k
  have hw : Wrote h k held id o key v := by
    have hinsert := wrote_insertField hr ho hv key
    rwa [← run_assignField v hkey hlength] at hinsert
  refine ⟨hw.reachable, fun p name hp hname => ⟨?_, hw.lookupField_eq hname hp⟩, fun p hp hne => ?_,
    hw.object?_self⟩
  · rintro ⟨rfl, hs⟩
    exact hw.lookupField_of_shows hkey hp hs
  · exact (hw.nodes p hp).trans (if_neg hne)

def family : Session :=
  (Session.initial.run
    [⟨.store (.keep (.object [])), some "parent", none⟩,
      ⟨.object (.create "Child" (some (.register "parent"))), some "child", none⟩]).2

/-- What is assigned to the parent is read from the child, which stays as it is. -/
theorem assignField_local_family :
    let k := ((HeapM.assignField 4 "x" (.integer 7)).run family.heap).2
    k.lookupField 5 "x" = .integer 7 ∧ k.lookupField 5 "y" = family.heap.lookupField 5 "y" ∧
      k.node? 5 = family.heap.node? 5 := by
  intro k
  have hr : family.heap.Reachable [4, 5] := by
    have hr := Session.reachable_run
      [⟨.store (.keep (.object [])), some "parent", none⟩,
        ⟨.object (.create "Child" (some (.register "parent"))), some "child", none⟩]
    have hheld : family.links.map Link.target = [4, 5] := by decide +kernel
    exact hheld ▸ hr
  obtain ⟨o, ho⟩ : ∃ o, family.heap.object? 4 = some o :=
    Option.isSome_iff_exists.mp (by decide +kernel)
  obtain ⟨hk, hreads, hrest, -⟩ := assignField_local hr ho "x" (.integer 7)
    (fun x hx => by cases hx) (by decide) (fun hx => absurd hx (by decide))
  have hchild : k.ReachedFrom [4, 5] 5 := ⟨5, List.mem_append_right _ (by decide), .refl⟩
  have hchain : family.heap.chain 5 = [5] ++ 4 :: [0] := by decide +kernel
  have hshows : family.heap.Shows 4 "x" 5 :=
    shows_of_findSome? hchain (by decide +kernel) fun hx => absurd hx (by decide)
  exact ⟨(hreads 5 "x" hchild (by decide)).1 ⟨rfl, hshows⟩,
    (hreads 5 "y" hchild (by decide)).2 fun hy => absurd hy.1 (by decide),
    hrest 5 hchild (by decide)⟩

end Heap

end ScriptCore
