import Mathlib
import ScriptCore.Environment
import ScriptCore.Object.Accessor
import ScriptCore.Object.Attachment
import ScriptCore.Proofs.Agreement.Basic
import ScriptCore.Proofs.Fields
import ScriptCore.Proofs.Object.Chains
import ScriptCore.Template

/-!
# Reading heaps that match

Whatever is read of a value or an object that can be seen is the same on two heaps that match, and
what it refers to can be seen in its turn. Nodes are read directly, and chains of prototypes and of
scopes by induction on the walk.
-/

namespace ScriptCore

theorem findSome?_congr {α β : Type} {f g : α → Option β} {xs : List α}
    (he : ∀ x ∈ xs, f x = g x) : xs.findSome? f = xs.findSome? g := by
  induction xs with
  | nil => rfl
  | cons x xs ih =>
    rw [List.findSome?_cons, List.findSome?_cons, he x (List.mem_cons_self ..),
      ih fun y hy => he y (List.mem_cons_of_mem x hy)]

namespace Heap

def SeesValue (h : Heap) (links : List Link) (v : Value) : Prop := ∀ l ∈ v.links, h.Sees links l

variable {h k : Heap} {id : NodeId} {l : Link} {links more : List Link} {v : Value} {o : Object}
  {key name : String}

/-! ## What can be seen -/

theorem Sees.value (hs : h.Sees links (.object id)) : h.SeesValue links (.object id) :=
  fun _ hm => List.mem_singleton.mp hm ▸ hs

theorem SeesValue.object (hv : h.SeesValue links (.object id)) : h.Sees links (.object id) :=
  hv _ (List.mem_singleton.mpr rfl)

theorem SeesValue.scalar (hv : v.id? = none) : h.SeesValue links v := by
  intro l hm
  simp [Value.links, Value.references, hv] at hm

theorem SeesValue.held (hv : v.links ⊆ links) : h.SeesValue links v := fun _ hm => .held (hv hm)

theorem seesValue_ofOption {p : Option NodeId} (hp : ∀ id, p = some id → h.Sees links (.object id)) :
    h.SeesValue links (.ofOption p) := by
  cases p with
  | none => exact .scalar rfl
  | some id => exact (hp id rfl).value

theorem scope?_eq_some_iff {s : Scope} : h.scope? id = some s ↔ h.node? id = some (.scope s) := by
  rw [scope?]
  cases h.node? id with
  | none => simp
  | some node => cases node <;> simp

namespace Sees

variable (hs : h.Sees links (.object id)) (ho : h.object? id = some o)

include hs ho

theorem of_object? (hl : l ∈ o.links) : h.Sees links l :=
  .stored hs (object?_eq_some_iff.mp ho) hl

theorem prototype {p : NodeId} (hp : o.prototype = some p) : h.Sees links (.object p) :=
  hs.of_object? ho (Object.mem_links_iff.mpr (Or.inl ⟨p, hp, rfl⟩))

theorem field (hv : v ∈ o.fields.values) : h.SeesValue links v := fun _ hl =>
  hs.of_object? ho (Object.mem_links_iff.mpr (Or.inr (Or.inl ⟨v, hv, hl⟩)))

theorem getter {g : NodeId} (hg : g ∈ o.getters.values) : h.Sees links (.object g) :=
  hs.of_object? ho (Object.mem_links_iff.mpr (Or.inr (Or.inr (Or.inl ⟨g, hg, rfl⟩))))

theorem setter {g : NodeId} (hg : g ∈ o.setters.values) : h.Sees links (.object g) :=
  hs.of_object? ho (Object.mem_links_iff.mpr (Or.inr (Or.inr (Or.inr (Or.inl ⟨g, hg, rfl⟩)))))

theorem payload {p : Payload} (hp : o.payload = some p) (hl : l ∈ p.links) : h.Sees links l :=
  hs.of_object? ho
    (Object.mem_links_iff.mpr (Or.inr (Or.inr (Or.inr (Or.inr (Or.inl ⟨p, hp, hl⟩))))))

theorem exotic (hl : l ∈ o.exotic.links) : h.Sees links l :=
  hs.of_object? ho (Object.mem_links_iff.mpr (Or.inr (Or.inr (Or.inr (Or.inr (Or.inr hl))))))

theorem element {elements : Array Value} (he : o.exotic = .array elements)
    (hv : v ∈ elements.toList) : h.SeesValue links v := fun l hl =>
  hs.exotic ho (by rw [he]; exact List.mem_flatMap.mpr ⟨v, hv, hl⟩)

theorem callable {f : Callable} (he : o.exotic = .function f) (hl : l ∈ f.links) :
    h.Sees links l := hs.exotic ho (by rw [he]; exact hl)

end Sees

namespace Matches

variable (ha : Matches links h k)

include ha

/-! ## Nodes -/

theorem object?_eq (hs : h.Sees links (.object id)) : k.object? id = h.object? id := by
  have hn : k.node? id = h.node? id := ha.nodes hs
  rw [object?, object?, hn]

theorem scope?_eq (hs : h.Sees links (.scope id)) : k.scope? id = h.scope? id := by
  have hn : k.node? id = h.node? id := ha.nodes hs
  rw [scope?, scope?, hn]

theorem exists_object (hs : h.Sees links (.object id)) : ∃ o, h.object? id = some o := by
  obtain ⟨o, hn⟩ := ha.has_of_sees hs
  exact ⟨o, object?_eq_some_iff.mpr hn⟩

theorem exists_scope (hs : h.Sees links (.scope id)) : ∃ s, h.scope? id = some s := by
  obtain ⟨s, hn⟩ := ha.has_of_sees hs
  exact ⟨s, scope?_eq_some_iff.mpr hn⟩

theorem objectOf?_eq (hv : h.SeesValue links v) : k.objectOf? v = h.objectOf? v := by
  cases v with
  | object id => exact ha.object?_eq hv.object
  | _ => rfl

theorem text?_eq (hv : h.SeesValue links v) : k.text? v = h.text? v := by
  rw [text?, text?, ha.objectOf?_eq hv]

theorem elements?_eq (hv : h.SeesValue links v) : k.elements? v = h.elements? v := by
  rw [elements?, elements?, ha.objectOf?_eq hv]

theorem callable?_eq (hv : h.SeesValue links v) : k.callable? v = h.callable? v := by
  rw [callable?, callable?, ha.objectOf?_eq hv]

theorem kind?_eq (hv : h.SeesValue links v) : k.kind? v = h.kind? v := by
  rw [kind?, kind?, ha.objectOf?_eq hv]

theorem isString_eq (hv : h.SeesValue links v) : k.isString v = h.isString v := by
  rw [isString, isString, ha.kind?_eq hv]

theorem isArray_eq (hv : h.SeesValue links v) : k.isArray v = h.isArray v := by
  rw [isArray, isArray, ha.kind?_eq hv]

theorem isFunction_eq (hv : h.SeesValue links v) : k.isFunction v = h.isFunction v := by
  rw [isFunction, isFunction, ha.kind?_eq hv]

theorem callableOf?_eq (hs : h.Sees links (.object id)) : k.callableOf? id = h.callableOf? id := by
  rw [callableOf?, callableOf?, ha.object?_eq hs]

theorem elementsOf?_eq (hs : h.Sees links (.object id)) : k.elementsOf? id = h.elementsOf? id := by
  rw [elementsOf?, elementsOf?, ha.object?_eq hs]

theorem arrayLength?_eq (hs : h.Sees links (.object id)) :
    k.arrayLength? id = h.arrayLength? id := by
  rw [arrayLength?, arrayLength?, ha.elementsOf?_eq hs]

theorem elementAt_eq (hs : h.Sees links (.object id)) (index : Nat) :
    k.elementAt id index = h.elementAt id index := by
  rw [elementAt, elementAt, ha.elementsOf?_eq hs]

theorem prototype?_eq (hs : h.Sees links (.object id)) : k.prototype? id = h.prototype? id := by
  rw [prototype?, prototype?, ha.object?_eq hs]

theorem payload?_eq (hs : h.Sees links (.object id)) : k.payload? id = h.payload? id := by
  rw [payload?, payload?, ha.object?_eq hs]

theorem keys_eq (hs : h.Sees links (.object id)) : k.keys id = h.keys id := by
  rw [keys, keys, ha.object?_eq hs]

theorem ownPlainField?_eq (hs : h.Sees links (.object id)) (key : String) :
    k.ownPlainField? id key = h.ownPlainField? id key := by
  rw [ownPlainField?, ownPlainField?, ha.object?_eq hs]

theorem ownGetter?_eq (hs : h.Sees links (.object id)) (key : String) :
    k.ownGetter? id key = h.ownGetter? id key := by
  rw [ownGetter?, ownGetter?, ha.object?_eq hs]

theorem ownSetter?_eq (hs : h.Sees links (.object id)) (key : String) :
    k.ownSetter? id key = h.ownSetter? id key := by
  rw [ownSetter?, ownSetter?, ha.object?_eq hs]

theorem template?_eq (hs : h.Sees links (.object id)) : k.template? id = h.template? id := by
  rw [template?, template?, ha.callableOf?_eq hs]

theorem ownBinding?_eq (hs : h.Sees links (.scope id)) (name : String) :
    k.ownBinding? id name = h.ownBinding? id name := by
  rw [ownBinding?, ownBinding?, ha.scope?_eq hs]

theorem outerScope?_eq (hs : h.Sees links (.scope id)) : k.outerScope? id = h.outerScope? id := by
  rw [outerScope?, outerScope?, ha.scope?_eq hs]

/-! ## Chains -/

theorem chainFrom_eq (fuel : Nat) (start : Option NodeId)
    (hs : ∀ id, start = some id → h.Sees links (.object id)) :
    k.chainFrom fuel start = h.chainFrom fuel start ∧
      ∀ id ∈ h.chainFrom fuel start, h.Sees links (.object id) := by
  refine chainFrom_congr (fun x hx => by rw [ha.object?_eq hx]) (fun x y hx hxy => ?_) fuel start hs
  obtain ⟨o, ho, hy⟩ := Option.bind_eq_some_iff.mp hxy
  exact hx.prototype ho hy

theorem chain_eq (hs : h.Sees links (.object id)) :
    k.chain id = h.chain id ∧ ∀ x ∈ h.chain id, h.Sees links (.object x) := by
  rw [chain, chain, ha.size]
  exact ha.chainFrom_eq _ _ fun x hx => Option.some.inj hx ▸ hs

theorem closesCycle_eq (id : NodeId) {p : Option NodeId}
    (hp : ∀ x, p = some x → h.Sees links (.object x)) : k.closesCycle id p = h.closesCycle id p := by
  rw [closesCycle, closesCycle, ha.size, (ha.chainFrom_eq _ p hp).1]

theorem scopesFrom_eq (fuel : Nat) : ∀ start : Option NodeId,
    (∀ id, start = some id → h.Sees links (.scope id)) →
      k.scopesFrom fuel start = h.scopesFrom fuel start ∧
        ∀ id ∈ h.scopesFrom fuel start, h.Sees links (.scope id) := by
  induction fuel with
  | zero =>
    intro start _
    cases start with
    | none => exact ⟨rfl, fun id hm => absurd hm List.not_mem_nil⟩
    | some id => exact ⟨rfl, fun id hm => absurd hm List.not_mem_nil⟩
  | succ fuel ih =>
    intro start hs
    cases start with
    | none => exact ⟨rfl, fun id hm => absurd hm List.not_mem_nil⟩
    | some id =>
      have hsee := hs id rfl
      obtain ⟨s, ho⟩ := ha.exists_scope hsee
      obtain ⟨heq, hall⟩ := ih s.outer fun p hp => .stored hsee (scope?_eq_some_iff.mp ho)
        (Scope.mem_links_iff.mpr (Or.inr ⟨p, hp, rfl⟩))
      rw [scopesFrom, scopesFrom, ha.scope?_eq hsee, ho]
      refine ⟨congrArg (id :: ·) heq, fun x hx => ?_⟩
      rcases List.mem_cons.mp hx with rfl | hx
      · exact hsee
      · exact hall x hx

theorem scopes_eq (hs : h.Sees links (.scope id)) :
    k.scopes id = h.scopes id ∧ ∀ x ∈ h.scopes id, h.Sees links (.scope x) := by
  rw [scopes, scopes, ha.size]
  exact ha.scopesFrom_eq _ _ fun x hx => Option.some.inj hx ▸ hs

/-! ## Lookups along a chain -/

theorem findGetter?_eq (hs : h.Sees links (.object id)) (key : String) :
    k.findGetter? id key = h.findGetter? id key := by
  obtain ⟨heq, hall⟩ := ha.chain_eq hs
  rw [findGetter?, findGetter?, heq]
  exact findSome?_congr fun x hx => ha.ownGetter?_eq (hall x hx) key

theorem findSetter?_eq (hs : h.Sees links (.object id)) (key : String) :
    k.findSetter? id key = h.findSetter? id key := by
  obtain ⟨heq, hall⟩ := ha.chain_eq hs
  rw [findSetter?, findSetter?, heq]
  exact findSome?_congr fun x hx => ha.ownSetter?_eq (hall x hx) key

theorem sees_findGetter? (hs : h.Sees links (.object id)) {g : NodeId}
    (hg : h.findGetter? id key = some g) : h.Sees links (.object g) := by
  obtain ⟨x, hx, hg⟩ := List.exists_of_findSome?_eq_some hg
  obtain ⟨o, ho, hg⟩ := Option.bind_eq_some_iff.mp hg
  exact ((ha.chain_eq hs).2 x hx).getter ho (Fields.mem_values_of_get? hg)

theorem sees_findSetter? (hs : h.Sees links (.object id)) {g : NodeId}
    (hg : h.findSetter? id key = some g) : h.Sees links (.object g) := by
  obtain ⟨x, hx, hg⟩ := List.exists_of_findSome?_eq_some hg
  obtain ⟨o, ho, hg⟩ := Option.bind_eq_some_iff.mp hg
  exact ((ha.chain_eq hs).2 x hx).setter ho (Fields.mem_values_of_get? hg)

theorem lookupField_eq (hs : h.Sees links (.object id)) (key : String) :
    k.lookupField id key = h.lookupField id key := by
  obtain ⟨heq, hall⟩ := ha.chain_eq hs
  rw [lookupField, lookupField, ha.prototype?_eq hs, inheritedField, inheritedField, heq]
  refine if_congr Iff.rfl rfl (congrArg (Option.getD · _) (findSome?_congr fun x hx => ?_))
  rw [ha.object?_eq (hall x hx)]

theorem sees_lookupField (hs : h.Sees links (.object id)) (key : String) :
    h.SeesValue links (h.lookupField id key) := by
  rw [lookupField]
  split
  · refine seesValue_ofOption fun p hp => ?_
    obtain ⟨o, ho, hp⟩ := Option.bind_eq_some_iff.mp hp
    exact hs.prototype ho hp
  · rw [inheritedField]
    cases hf : (h.chain id).findSome? fun link => (h.object? link).bind fun o => o.ownField? key with
    | none => exact .scalar rfl
    | some v =>
      obtain ⟨x, hx, hv⟩ := List.exists_of_findSome?_eq_some hf
      obtain ⟨o, ho, hv⟩ := Option.bind_eq_some_iff.mp hv
      rw [Object.ownField?, Option.or_eq_some_iff] at hv
      rcases hv with hv | ⟨_, hv⟩
      · -- A length is a number.
        refine .scalar ?_
        split at hv
        · rw [Object.ownLength?] at hv
          split at hv <;> simp at hv <;> subst hv <;> rw [Value.ofNat] <;> split <;> rfl
        · simp at hv
      · exact ((ha.chain_eq hs).2 x hx).field ho (Fields.mem_values_of_get? hv)

theorem lookupFieldOf_eq (hv : h.SeesValue links v) (key : String) :
    k.lookupFieldOf v key = h.lookupFieldOf v key := by
  cases v with
  | object id => exact ha.lookupField_eq hv.object key
  | _ => rfl

theorem sees_lookupFieldOf (hv : h.SeesValue links v) (key : String) :
    h.SeesValue links (h.lookupFieldOf v key) := by
  cases v with
  | object id => exact ha.sees_lookupField hv.object key
  | _ => exact .scalar rfl

theorem isInstanceOf_eq (hs : h.Sees links (.object id)) (callable : NodeId) :
    k.isInstanceOf id callable = h.isInstanceOf id callable := by
  obtain ⟨heq, hall⟩ := ha.chain_eq hs
  rw [isInstanceOf, isInstanceOf, heq]
  rw [Bool.eq_iff_iff, List.any_eq_true, List.any_eq_true]
  exact exists_congr fun x => and_congr_right fun hx => by
    rw [ha.object?_eq (hall x (List.mem_of_mem_tail hx))]

theorem isInstance_eq {w : Value} (hv : h.SeesValue links v) (hw : h.SeesValue links w) :
    k.isInstance v w = h.isInstance v w := by
  cases v with
  | object id =>
    cases w with
    | object f => rw [isInstance, isInstance, ha.isFunction_eq hw, ha.isInstanceOf_eq hv.object]
    | _ => rfl
  | _ => rfl

/-! ## Lookups along scopes -/

theorem bindingScope?_eq (hs : h.Sees links (.scope id)) (name : String) :
    k.bindingScope? id name = h.bindingScope? id name := by
  obtain ⟨heq, hall⟩ := ha.scopes_eq hs
  rw [bindingScope?, bindingScope?, heq]
  exact List.find?_congr fun x hx => by rw [ha.ownBinding?_eq (hall x hx)]

theorem sees_bindingScope? (hs : h.Sees links (.scope id)) {x : NodeId}
    (hx : h.bindingScope? id name = some x) : h.Sees links (.scope x) :=
  (ha.scopes_eq hs).2 x (List.mem_of_find?_eq_some hx)

theorem readVariable_eq (hs : h.Sees links (.scope id)) (name : String) :
    k.readVariable id name = h.readVariable id name := by
  rw [readVariable, readVariable, ha.bindingScope?_eq hs]
  cases hx : h.bindingScope? id name with
  | none => rfl
  | some x =>
    rw [Option.bind_some, Option.bind_some, ha.ownBinding?_eq (ha.sees_bindingScope? hs hx)]

theorem sees_readVariable (hs : h.Sees links (.scope id)) (hv : h.readVariable id name = some v) :
    h.SeesValue links v := by
  obtain ⟨b, hb, rfl⟩ := Option.map_eq_some_iff.mp hv
  obtain ⟨x, hx, hb⟩ := Option.bind_eq_some_iff.mp hb
  obtain ⟨s, hn, hb⟩ := Option.bind_eq_some_iff.mp hb
  refine fun l hl => .stored (ha.sees_bindingScope? hs hx) (scope?_eq_some_iff.mp hn) ?_
  exact Scope.mem_links_iff.mpr (Or.inl ⟨b, Fields.mem_values_of_get? hb, hl⟩)

end Matches

end Heap

end ScriptCore
