import Mathlib
import ScriptCore.Heap.Basic

/-!
# Links

A **link** is a reference that says what kind of node it leads to. The links of a node are its
references (`Node.map_target_links`), and so is what it lets go of when it dies
(`Node.references_contents`); only the order differs. On a sound heap every link leads to a live
node of its kind.
-/

namespace ScriptCore

/-- A reference to an object, or to a scope. -/
inductive Link where
  | object (id : NodeId)
  | scope (id : NodeId)
deriving DecidableEq

namespace Link

def target : Link → NodeId
  | .object id | .scope id => id

@[simp] theorem target_object (id : NodeId) : (Link.object id).target = id := rfl

@[simp] theorem target_scope (id : NodeId) : (Link.scope id).target = id := rfl

end Link

def Value.links (v : Value) : List Link := v.references.map .object

@[simp] theorem Value.links_object (id : NodeId) : (Value.object id).links = [.object id] := rfl

theorem Value.links_scalar {v : Value} (hv : v.id? = none) : v.links = [] := by
  rw [links, references, hv]
  rfl

theorem Value.links_ofNat (n : Nat) : (Value.ofNat n).links = [] := by
  rw [ofNat]
  split <;> rfl

def Body.links (b : Body) : List Link :=
  b.tracedReferences.map .scope ++ b.hiddenReferences.map .object

def Callable.links (f : Callable) : List Link :=
  f.boundThis.toList.flatMap Value.links ++ f.body.links

def Exotic.links : Exotic → List Link
  | .ordinary | .string _ => []
  | .array elements => elements.toList.flatMap Value.links
  | .function f => f.links

def Payload.links (p : Payload) : List Link := p.references.map .object

def Object.links (o : Object) : List Link :=
  o.prototype.toList.map .object ++ o.fields.values.flatMap Value.links ++
    o.getters.values.map .object ++ o.setters.values.map .object ++
    o.payload.toList.flatMap Payload.links ++ o.exotic.links

def Scope.links (s : Scope) : List Link :=
  (s.bindings.values.flatMap fun binding => binding.value.links) ++ s.outer.toList.map .scope

def Node.links : Node → List Link
  | .object o => o.links
  | .scope s => s.links

def Node.linkTo (id : NodeId) : Node → Link
  | .object _ => .object id
  | .scope _ => .scope id

@[simp] theorem Node.target_linkTo (id : NodeId) (node : Node) :
    (node.linkTo id).target = id := by
  cases node <;> rfl

/-! ## The links of an object -/

theorem Object.mem_links_iff {o : Object} {l : Link} :
    l ∈ o.links ↔ (∃ p, o.prototype = some p ∧ l = .object p) ∨
      (∃ v ∈ o.fields.values, l ∈ v.links) ∨ (∃ g ∈ o.getters.values, l = .object g) ∨
      (∃ g ∈ o.setters.values, l = .object g) ∨ (∃ p, o.payload = some p ∧ l ∈ p.links) ∨
      l ∈ o.exotic.links := by
  simp only [links, List.mem_append, List.mem_map, List.mem_flatMap, Option.mem_toList, or_assoc,
    eq_comm]

theorem Scope.mem_links_iff {s : Scope} {l : Link} :
    l ∈ s.links ↔ (∃ b ∈ s.bindings.values, l ∈ b.value.links) ∨
      ∃ outer, s.outer = some outer ∧ l = .scope outer := by
  simp only [links, List.mem_append, List.mem_map, List.mem_flatMap, Option.mem_toList, eq_comm]

def valueLinks (vs : List Value) : List Link := vs.flatMap Value.links

theorem mem_valueLinks {vs : List Value} {l : Link} :
    l ∈ valueLinks vs ↔ ∃ v ∈ vs, l ∈ v.links := List.mem_flatMap

theorem valueLinks_cons (v : Value) (vs : List Value) :
    valueLinks (v :: vs) = v.links ++ valueLinks vs := rfl

theorem valueLinks_singleton (v : Value) : valueLinks [v] = v.links := List.append_nil _

theorem links_subset_valueLinks {vs : List Value} {v : Value} (hv : v ∈ vs) :
    v.links ⊆ valueLinks vs := fun _ hl => mem_valueLinks.mpr ⟨v, hv, hl⟩

theorem valueLinks_append (vs ws : List Value) :
    valueLinks (vs ++ ws) = valueLinks vs ++ valueLinks ws := List.flatMap_append

theorem valueLinks_subset {vs ws : List Value} (hsub : vs ⊆ ws) : valueLinks vs ⊆ valueLinks ws := by
  intro l hl
  obtain ⟨v, hv, hl⟩ := mem_valueLinks.mp hl
  exact mem_valueLinks.mpr ⟨v, hsub hv, hl⟩

theorem valueLinks_replicate (n : Nat) : valueLinks (List.replicate n .undefined) = [] := by
  induction n with
  | zero => rfl
  | succ n ih => rw [List.replicate_succ, valueLinks_cons, ih]; rfl

namespace Object

variable {o : Object} {extra : List Link} {l : Link}

/-! A change of one part of an object adds no other links than the part does. -/

theorem links_prototype {p : Option NodeId} (hl : l ∈ ({ o with prototype := p } : Object).links) :
    l ∈ p.toList.map Link.object ∨ l ∈ o.links := by
  simp only [links, List.mem_append] at hl ⊢
  tauto

theorem links_fields {fields : Fields Value}
    (hf : ∀ l ∈ valueLinks fields.values, l ∈ extra ∨ l ∈ valueLinks o.fields.values)
    (hl : l ∈ ({ o with fields := fields } : Object).links) : l ∈ extra ∨ l ∈ o.links := by
  have := hf l
  simp only [links, valueLinks, List.mem_append] at hl this ⊢
  tauto

theorem links_getters {getters : Fields NodeId}
    (hf : ∀ g ∈ getters.values, Link.object g ∈ extra ∨ g ∈ o.getters.values)
    (hl : l ∈ ({ o with getters := getters } : Object).links) : l ∈ extra ∨ l ∈ o.links := by
  rw [mem_links_iff] at hl ⊢
  rcases hl with hl | hl | ⟨g, hg, rfl⟩ | hl
  · exact Or.inr (Or.inl hl)
  · exact Or.inr (Or.inr (Or.inl hl))
  · exact (hf g hg).imp_right fun hg => Or.inr (Or.inr (Or.inl ⟨g, hg, rfl⟩))
  · exact Or.inr (Or.inr (Or.inr (Or.inr hl)))

theorem links_setters {setters : Fields NodeId}
    (hf : ∀ g ∈ setters.values, Link.object g ∈ extra ∨ g ∈ o.setters.values)
    (hl : l ∈ ({ o with setters := setters } : Object).links) : l ∈ extra ∨ l ∈ o.links := by
  rw [mem_links_iff] at hl ⊢
  rcases hl with hl | hl | hl | ⟨g, hg, rfl⟩ | hl
  · exact Or.inr (Or.inl hl)
  · exact Or.inr (Or.inr (Or.inl hl))
  · exact Or.inr (Or.inr (Or.inr (Or.inl hl)))
  · exact (hf g hg).imp_right fun hg => Or.inr (Or.inr (Or.inr (Or.inl ⟨g, hg, rfl⟩)))
  · exact Or.inr (Or.inr (Or.inr (Or.inr (Or.inr hl))))

theorem links_payload {p : Option Payload}
    (hl : l ∈ ({ o with payload := p } : Object).links) :
    l ∈ p.toList.flatMap Payload.links ∨ l ∈ o.links := by
  simp only [links, List.mem_append] at hl ⊢
  tauto

theorem links_exotic {e : Exotic} (hl : l ∈ ({ o with exotic := e } : Object).links) :
    l ∈ e.links ∨ l ∈ o.links := by
  simp only [links, List.mem_append] at hl ⊢
  tauto

end Object

/-! ## Links and references -/

@[simp] theorem Value.map_target_links (v : Value) : v.links.map Link.target = v.references := by
  simp [links, Function.comp_def]

theorem map_target_flatMap_links (vs : List Value) :
    (vs.flatMap Value.links).map Link.target = vs.flatMap Value.references := by
  simp [List.map_flatMap]

@[simp] theorem Body.map_target_links (b : Body) :
    b.links.map Link.target = b.tracedReferences ++ b.hiddenReferences := by
  simp [links, Function.comp_def]

@[simp] theorem Callable.map_target_links (f : Callable) :
    f.links.map Link.target = f.references := by
  simp [links, references, map_target_flatMap_links]

@[simp] theorem Payload.map_target_links (p : Payload) :
    p.links.map Link.target = p.references := by
  simp [links, Function.comp_def]

theorem Object.map_target_exotic_links (o : Object) :
    o.exotic.links.map Link.target = o.exoticReferences ++ o.capturedReferences := by
  rw [exoticReferences, capturedReferences]
  cases o.exotic <;> simp [Exotic.links, map_target_flatMap_links, Callable.references]

/-- **The links of a node are its references.** -/
theorem Node.map_target_links (node : Node) : (node.links.map Link.target).Perm node.references := by
  cases node with
  | scope s =>
    simp [links, Scope.links, references, tracedReferences, hiddenReferences, Scope.references,
      List.map_flatMap, Function.comp_def]
  | object o =>
    refine List.perm_iff_count.mpr fun id => ?_
    have hp : (o.payload.toList.flatMap Payload.links).map Link.target =
        o.payload.toList.flatMap Payload.references := by simp [List.map_flatMap]
    simp only [links, Object.links, references, tracedReferences, hiddenReferences,
      Object.tracedReferences, Object.hiddenReferences, List.map_append, List.map_map,
      Function.comp_def, Link.target_object, List.map_id', map_target_flatMap_links,
      Object.map_target_exotic_links, hp, List.count_append]
    omega

theorem Node.mem_references_iff (node : Node) (id : NodeId) :
    id ∈ node.references ↔ ∃ l ∈ node.links, l.target = id := by
  rw [← (map_target_links node).mem_iff, List.mem_map]

/-! ## What a node lets go of -/

theorem Pending.references_map_reference (ids : List NodeId) :
    (ids.map Pending.reference).flatMap Pending.references = ids := by
  induction ids with
  | nil => rfl
  | cons id ids ih => simpa [references] using ih

@[simp] theorem Pending.references_ofValue (v : Value) :
    (ofValue v).flatMap references = v.references := references_map_reference v.references

/-- **A node that dies lets go of its references.** -/
theorem Node.references_contents (node : Node) :
    (node.contents.flatMap Pending.references).Perm node.references := by
  cases node with
  | scope s =>
    simp [contents, references, tracedReferences, hiddenReferences,
      Pending.references_map_reference]
  | object o =>
    refine List.perm_iff_count.mpr fun id => ?_
    have hp : (o.payload.toList.map Pending.payload).flatMap Pending.references =
        o.payload.toList.flatMap Payload.references := by
      cases o.payload <;> simp [Pending.references]
    simp only [contents, Object.contents, references, tracedReferences, hiddenReferences,
      Object.tracedReferences, Object.hiddenReferences, List.flatMap_append,
      Pending.references_map_reference, hp, List.count_append]
    omega

@[simp] theorem Node.references_emptied (node : Node) : node.emptied.references = [] := by
  cases node <;> rfl

namespace Heap

/-- Whether a link leads to a live node of its kind. -/
def Has (h : Heap) : Link → Prop
  | .object id => ∃ o, h.node? id = some (.object o)
  | .scope id => ∃ s, h.node? id = some (.scope s)

theorem Has.node {h : Heap} {l : Link} (hl : h.Has l) : ∃ node, h.node? l.target = some node := by
  cases l with
  | object id => exact ⟨_, hl.choose_spec⟩
  | scope id => exact ⟨_, hl.choose_spec⟩

theorem Has.isLive {h : Heap} {l : Link} (hl : h.Has l) : h.isLive l.target = true := by
  obtain ⟨node, hn⟩ := hl.node
  simp only [node?, Option.map_eq_some_iff] at hn
  obtain ⟨c, hc, _⟩ := hn
  simp [Heap.isLive, hc]

theorem has_linkTo {h : Heap} {id : NodeId} {node : Node} (hn : h.node? id = some node) :
    h.Has (node.linkTo id) := by
  cases node with
  | object o => exact ⟨o, hn⟩
  | scope s => exact ⟨s, hn⟩

theorem Has.congr {h k : Heap} {l : Link} (hl : h.Has l)
    (hn : k.node? l.target = h.node? l.target) : k.Has l := by
  cases l with
  | object id => exact ⟨hl.choose, hn.trans hl.choose_spec⟩
  | scope id => exact ⟨hl.choose, hn.trans hl.choose_spec⟩

theorem has_iff {h : Heap} {l : Link} :
    h.Has l ↔ ∃ node, h.node? l.target = some node ∧ node.linkTo l.target = l := by
  constructor
  · intro hl
    cases l with
    | object id => exact ⟨_, hl.choose_spec, rfl⟩
    | scope id => exact ⟨_, hl.choose_spec, rfl⟩
  · rintro ⟨node, hn, he⟩
    exact he ▸ has_linkTo hn

end Heap

end ScriptCore
