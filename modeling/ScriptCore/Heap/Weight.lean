import ScriptCore.Heap.Node

/-!
# The weight of a death

A node that dies lets go of its contents, and each of them takes a step or two. How many steps that
can be is told by the sizes of its tables alone, without looking into them. The main statement,
`Node.totalWeight_contents_le`, is that the contents weigh no more than that.
-/

namespace ScriptCore

namespace Pending

def totalWeight (items : List Pending) : Nat := (items.map weight).foldr (· + ·) 0

@[simp]
theorem totalWeight_nil : totalWeight [] = 0 := rfl

@[simp]
theorem totalWeight_cons (item : Pending) (items : List Pending) :
    totalWeight (item :: items) = item.weight + totalWeight items := rfl

@[simp]
theorem totalWeight_append (first second : List Pending) :
    totalWeight (first ++ second) = totalWeight first + totalWeight second := by
  induction first with
  | nil => simp
  | cons item items ih => simp [ih, Nat.add_assoc]

end Pending

namespace Exotic

/-- No less than the number of references held by the elements or the callable. -/
def releaseWeight : Exotic → Nat
  | .ordinary | .string _ => 0
  | .array elements => elements.size
  | .function _ => 3

end Exotic

namespace Object

/-- The fields are counted whether they hold references or not; the prototype counts for one and a
payload for two. -/
def releaseWeight (o : Object) : Nat :=
  3 + o.fields.size + o.getters.size + o.setters.size + o.exotic.releaseWeight

end Object

namespace Scope

def releaseWeight (s : Scope) : Nat := s.bindings.size + 1

end Scope

namespace Node

/-- No less than the weight of what a node lets go of when it dies. -/
def releaseWeight : Node → Nat
  | .object o => o.releaseWeight
  | .scope s => s.releaseWeight

end Node

/-! ## The bound holds -/

theorem Value.length_references_le (v : Value) : v.references.length ≤ 1 := by
  cases v <;> simp [Value.references, Value.id?]

theorem Value.length_flatMap_references_le (vs : List Value) :
    (vs.flatMap Value.references).length ≤ vs.length := by
  induction vs with
  | nil => simp
  | cons v vs ih =>
    have := v.length_references_le
    simp only [List.flatMap_cons, List.length_append, List.length_cons]
    omega

theorem Pending.totalWeight_references (ids : List NodeId) :
    totalWeight (ids.map Pending.reference) = ids.length := by
  induction ids with
  | nil => rfl
  | cons id ids ih =>
    rw [List.map_cons, totalWeight_cons, ih, List.length_cons, weight, Nat.add_comm]

theorem Exotic.length_references_le (o : Object) :
    o.exoticReferences.length + o.capturedReferences.length ≤ o.exotic.releaseWeight := by
  unfold Object.exoticReferences Object.capturedReferences Exotic.releaseWeight
  cases o.exotic with
  | ordinary => simp
  | string _ => simp
  | array elements =>
    have := Value.length_flatMap_references_le elements.toList
    simpa using this
  | function f =>
    have hthis : (f.boundThis.toList.flatMap Value.references).length ≤ 1 := by
      have := Value.length_flatMap_references_le f.boundThis.toList
      cases h : f.boundThis <;> simp_all
    have hbody : f.body.tracedReferences.length + f.body.hiddenReferences.length ≤ 1 := by
      cases f.body with
      | native _ => simp [Body.tracedReferences, Body.hiddenReferences]
      | closure _ state =>
        cases state <;>
          simp [Body.tracedReferences, Body.hiddenReferences, Closure.references,
            Value.length_references_le]
      | interpreted _ _ => simp [Body.tracedReferences, Body.hiddenReferences]
      | compiled _ scope => cases scope <;> simp [Body.tracedReferences, Body.hiddenReferences]
    simp only [List.length_append]
    omega

/-- What a node lets go of weighs no more than its kind and size tell. -/
theorem Node.totalWeight_contents_le (node : Node) :
    Pending.totalWeight node.contents ≤ node.releaseWeight := by
  cases node with
  | scope s =>
    have hvars :
        (s.bindings.values.flatMap fun b => b.value.references).length ≤ s.bindings.size := by
      have := Value.length_flatMap_references_le (s.bindings.values.map Binding.value)
      simpa [List.flatMap_map, Fields.values, Fields.size] using this
    have houter : s.outer.toList.length ≤ 1 := by cases s.outer <;> simp
    simp only [contents, Pending.totalWeight_references, Scope.references, releaseWeight,
      Scope.releaseWeight, List.length_append]
    omega
  | object o =>
    have hfields := Value.length_flatMap_references_le o.fields.values
    have hexotic := Exotic.length_references_le o
    have hproto : o.prototype.toList.length ≤ 1 := by cases o.prototype <;> simp
    have hpayload : Pending.totalWeight (o.payload.toList.map Pending.payload) ≤ 2 := by
      cases o.payload <;> simp [Pending.weight]
    simp only [contents, Object.contents, Pending.totalWeight_append,
      Pending.totalWeight_references, releaseWeight, Object.releaseWeight, Fields.values,
      List.length_append, List.length_map, Fields.size] at *
    omega

end ScriptCore
