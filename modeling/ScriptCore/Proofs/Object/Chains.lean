import Mathlib
import ScriptCore.Proofs.Heap.Soundness

/-!
# Prototype chains

On a sound heap the walk along the prototypes comes to its end by itself: it meets no object twice
(`nodup_chainFrom`), so it is never longer than the heap, and the steps that it is given suffice
(`chainFrom_of_le`). So a chain holds exactly what its first object inherits from (`mem_chain_iff`),
and the check for cycles finds exactly the links that would close one (`closesCycle_iff`).
-/

namespace ScriptCore

namespace Heap

variable {h k : Heap} {id : NodeId} {held : List NodeId}

theorem object?_eq_some_iff {o : Object} :
    h.object? id = some o ↔ h.node? id = some (.object o) := by
  rw [object?]
  cases h.node? id with
  | none => simp
  | some node => cases node <;> simp

theorem has_object_iff : h.Has (.object id) ↔ ∃ o, h.object? id = some o :=
  exists_congr fun _ => object?_eq_some_iff.symm

theorem inherits_of_object? {o : Object} {p : NodeId} (ho : h.object? id = some o)
    (hp : o.prototype = some p) : h.Inherits id p := by
  rw [Inherits, prototype?, ho]
  exact hp

/-! ## The walk -/

theorem chainFrom_none (fuel : Nat) : h.chainFrom fuel none = [] := by
  cases fuel <;> rfl

theorem chainFrom_succ {o : Object} (ho : h.object? id = some o) (fuel : Nat) :
    h.chainFrom (fuel + 1) (some id) = id :: h.chainFrom fuel o.prototype := by
  rw [chainFrom, ho]

theorem chainFrom_of_not_object (ho : h.object? id = none) (fuel : Nat) :
    h.chainFrom fuel (some id) = [] := by
  cases fuel with
  | zero => rfl
  | succ fuel => rw [chainFrom, ho]

theorem chainFrom_eq_take (fuel more : Nat) : ∀ start : Option NodeId,
    h.chainFrom fuel start = (h.chainFrom (fuel + more) start).take fuel := by
  induction fuel with
  | zero => intro start; cases start <;> rfl
  | succ fuel ih =>
    intro start
    cases start with
    | none => rw [chainFrom_none, chainFrom_none, List.take_nil]
    | some id =>
      cases ho : h.object? id with
      | none => rw [chainFrom_of_not_object ho, chainFrom_of_not_object ho, List.take_nil]
      | some o =>
        rw [Nat.add_right_comm, chainFrom_succ ho, chainFrom_succ ho, List.take_succ_cons, ← ih]

/-- Everything met on a walk is an object that its start inherits from. -/
theorem of_mem_chainFrom (fuel : Nat) : ∀ start : NodeId, id ∈ h.chainFrom fuel (some start) →
    (∃ o, h.object? start = some o) ∧ (∃ o, h.object? id = some o) ∧
      Relation.ReflTransGen h.Inherits start id := by
  induction fuel with
  | zero => exact fun start hm => absurd hm List.not_mem_nil
  | succ fuel ih =>
    intro start hm
    cases ho : h.object? start with
    | none =>
      rw [chainFrom_of_not_object ho] at hm
      exact absurd hm List.not_mem_nil
    | some o =>
      rw [chainFrom_succ ho] at hm
      rcases List.mem_cons.mp hm with rfl | hm
      · exact ⟨⟨o, rfl⟩, ⟨o, ho⟩, .refl⟩
      · cases hp : o.prototype with
        | none =>
          rw [hp, chainFrom_none] at hm
          exact absurd hm List.not_mem_nil
        | some p =>
          rw [hp] at hm
          obtain ⟨_, hid, hpath⟩ := ih p hm
          exact ⟨⟨o, rfl⟩, hid, .head (inherits_of_object? ho hp) hpath⟩

theorem exists_mem_chainFrom {start : NodeId} (hid : ∃ o, h.object? id = some o)
    (hp : Relation.ReflTransGen h.Inherits start id) :
    ∃ fuel, id ∈ h.chainFrom fuel (some start) := by
  induction hp using Relation.ReflTransGen.head_induction_on with
  | refl =>
    obtain ⟨o, ho⟩ := hid
    exact ⟨1, by rw [chainFrom_succ ho]; exact List.mem_cons_self ..⟩
  | @head a b hab _ ih =>
    obtain ⟨fuel, hm⟩ := ih
    obtain ⟨o, ho, hp⟩ := Option.bind_eq_some_iff.mp hab
    refine ⟨fuel + 1, ?_⟩
    rw [chainFrom_succ ho, hp]
    exact List.mem_cons_of_mem a hm

/-- Chains are the same on two heaps where the prototypes of some objects are the same, and are among
these objects again. -/
theorem chainFrom_congr {among : NodeId → Prop}
    (hsame : ∀ x, among x → (k.object? x).map Object.prototype = (h.object? x).map Object.prototype)
    (hnext : ∀ x y, among x → h.Inherits x y → among y) (fuel : Nat) :
    ∀ start : Option NodeId, (∀ x, start = some x → among x) →
      k.chainFrom fuel start = h.chainFrom fuel start ∧ ∀ x ∈ h.chainFrom fuel start, among x := by
  induction fuel with
  | zero =>
    intro start _
    cases start <;> exact ⟨rfl, fun x hm => absurd hm List.not_mem_nil⟩
  | succ fuel ih =>
    intro start hstart
    cases start with
    | none => exact ⟨rfl, fun x hm => absurd hm List.not_mem_nil⟩
    | some x =>
      have hx := hstart x rfl
      have hproto := hsame x hx
      cases ho : h.object? x with
      | none =>
        rw [ho, Option.map_none, Option.map_eq_none_iff] at hproto
        rw [chainFrom_of_not_object ho, chainFrom_of_not_object hproto]
        exact ⟨rfl, fun y hm => absurd hm List.not_mem_nil⟩
      | some o =>
        rw [ho, Option.map_some] at hproto
        obtain ⟨o', ho', he⟩ := Option.map_eq_some_iff.mp hproto
        obtain ⟨heq, hall⟩ := ih o.prototype fun y hy =>
          hnext x y hx (inherits_of_object? ho hy)
        rw [chainFrom_succ ho, chainFrom_succ ho', he, heq]
        exact ⟨rfl, List.forall_mem_cons.mpr ⟨hx, hall⟩⟩

/-! ## Chains of sound heaps -/

namespace Sound

/-- **No object is met twice.** -/
theorem nodup_chainFrom (hs : h.Sound held) (fuel : Nat) : ∀ start : Option NodeId,
    (h.chainFrom fuel start).Nodup := by
  induction fuel with
  | zero => intro start; cases start <;> exact List.nodup_nil
  | succ fuel ih =>
    intro start
    cases start with
    | none => rw [chainFrom_none]; exact List.nodup_nil
    | some id =>
      cases ho : h.object? id with
      | none => rw [chainFrom_of_not_object ho]; exact List.nodup_nil
      | some o =>
        rw [chainFrom_succ ho]
        refine List.nodup_cons.mpr ⟨fun hm => ?_, ih o.prototype⟩
        cases hp : o.prototype with
        | none =>
          rw [hp, chainFrom_none] at hm
          exact absurd hm List.not_mem_nil
        | some p =>
          rw [hp] at hm
          exact hs.acyclic id (.head' (inherits_of_object? ho hp) (of_mem_chainFrom fuel p hm).2.2)

theorem length_chainFrom_le (hs : h.Sound held) (fuel : Nat) (start : Option NodeId) :
    (h.chainFrom fuel start).length ≤ h.cells.size := by
  have hsub : h.chainFrom fuel start ⊆ List.range h.cells.size := by
    intro x hm
    cases start with
    | none =>
      rw [chainFrom_none] at hm
      exact absurd hm List.not_mem_nil
    | some id =>
      obtain ⟨_, ⟨o, ho⟩, _⟩ := of_mem_chainFrom fuel id hm
      exact List.mem_range.mpr (lt_size_of_node? (object?_eq_some_iff.mp ho))
  have := (hs.nodup_chainFrom fuel start).subperm hsub
  simpa using this.length_le

/-- **The walk ends by itself**: more steps than the heap has cells find nothing more. -/
theorem chainFrom_of_le (hs : h.Sound held) {fuel : Nat} (hle : h.cells.size ≤ fuel)
    (start : Option NodeId) : h.chainFrom fuel start = h.chainFrom h.cells.size start := by
  obtain ⟨more, rfl⟩ := Nat.exists_eq_add_of_le hle
  rw [chainFrom_eq_take h.cells.size more, List.take_of_length_le (hs.length_chainFrom_le _ start)]

/-- **The chain of an object** holds what it inherits from, itself included. -/
theorem mem_chain_iff (hs : h.Sound held) {start : NodeId} :
    id ∈ h.chain start ↔
      (∃ o, h.object? start = some o) ∧ Relation.ReflTransGen h.Inherits start id := by
  rw [chain]
  constructor
  · intro hm
    obtain ⟨ho, _, hp⟩ := of_mem_chainFrom _ start hm
    exact ⟨ho, hp⟩
  · rintro ⟨ho, hp⟩
    have hid : ∃ o, h.object? id = some o := by
      rcases Relation.ReflTransGen.cases_tail hp with rfl | ⟨b, _, hb⟩
      · exact ho
      · exact has_object_iff.mp (hs.has_of_inherits hb)
    obtain ⟨fuel, hm⟩ := exists_mem_chainFrom hid hp
    rw [chainFrom_eq_take fuel h.cells.size, hs.chainFrom_of_le (by omega)] at hm
    exact List.mem_of_mem_take hm

/-- **The check for cycles** finds the links that would close one. -/
theorem closesCycle_iff (hs : h.Sound held) {p : Option NodeId} :
    h.closesCycle id p = true ↔ ∃ start, p = some start ∧ (∃ o, h.object? start = some o) ∧
      Relation.ReflTransGen h.Inherits start id := by
  rw [closesCycle, List.contains_iff_mem]
  cases p with
  | none => simp [chainFrom_none]
  | some start =>
    rw [← chain, hs.mem_chain_iff]
    exact ⟨fun hm => ⟨start, rfl, hm⟩, fun ⟨_, he, hm⟩ => Option.some.inj he ▸ hm⟩

end Sound

end Heap

end ScriptCore
