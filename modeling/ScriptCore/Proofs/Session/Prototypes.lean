import ScriptCore.Proofs.Agreement.WholeSteps
import ScriptCore.Proofs.Object.Walks

/-!
# Prototype chains end

Whatever a host does, no object comes to be on its own prototype chain (`Session.chainsEnd_run`). So
the loops along a chain end, the check for cycles among them, and that check refuses exactly the
links that would close a cycle. A link that is refused changes nothing, and neither does an
assignment to `__proto__` that is ignored.
-/

namespace ScriptCore

namespace Heap

/-- What holds of the prototypes of a heap on which every chain ends. -/
structure ChainsEnd (h : Heap) : Prop where
  /-- no object is on its own chain -/
  acyclic : ∀ id, ¬ Relation.TransGen h.Inherits id id
  /-- looking up a field ends -/
  lookup : ∀ id key, (∃ o, h.object? id = some o) →
    ∃ r, h.Walk (fun link => (h.object? link).bind fun o => o.ownField? key) (some id) r ∧
      h.lookupField id key =
        if key = protoKey then .ofOption (h.prototype? id) else r.getD .undefined
  /-- finding an accessor ends, with the nearest one -/
  getter : ∀ id key, (∃ o, h.object? id = some o) →
    h.Walk (fun link => h.ownGetter? link key) (some id) (h.findGetter? id key)
  setter : ∀ id key, (∃ o, h.object? id = some o) →
    h.Walk (fun link => h.ownSetter? link key) (some id) (h.findSetter? id key)
  /-- looking for a constructor above an object ends -/
  instances : ∀ id callable, (∃ o, h.object? id = some o) →
    ∃ r, h.Walk (Option.guard fun link =>
        ((h.object? link).bind fun o => o.fields.get? "constructor") == some (.object callable))
      (h.prototype? id) r ∧ h.isInstanceOf id callable = r.isSome
  /-- the check for cycles ends -/
  check : ∀ id p, (∃ o, h.object? p = some o) →
    ∃ r, h.Walk (Option.guard fun link => id == link) (some p) r ∧
      h.closesCycle id (some p) = r.isSome
  /-- a link is refused exactly if the object is its new prototype or an ancestor of it -/
  refused_iff : ∀ id p, (∃ o, h.object? id = some o) → (∃ o, h.object? p = some o) →
    (((HeapM.setPrototype id (some p)).run h).1 = .error .prototypeCycle ↔
      Relation.ReflTransGen h.Inherits p id)
  /-- a link that is refused changes nothing -/
  refused : ∀ id p, ((HeapM.setPrototype id p).run h).1 = .error .prototypeCycle →
    ((HeapM.setPrototype id p).run h).2 = h
  /-- an assignment to `__proto__` changes nothing if its value is no prototype, or is refused -/
  ignored : ∀ id v, v ≠ .null →
    (∀ p, v = .object p → ((HeapM.setPrototype id (some p)).run h).1 = .error .prototypeCycle) →
      ((HeapM.assignField id protoKey v).run h).2 = h

variable {h : Heap} {held : List NodeId} {id : NodeId} {v : Value}

/-! ## Links that are refused -/

/-- A link that would close a cycle is refused. Any other is set, and the old one let go. -/
theorem run_setPrototype (id : NodeId) (p : Option NodeId) (h : Heap) :
    (HeapM.setPrototype id p).run h =
      if h.closesCycle id p then (.error .prototypeCycle, h)
      else
        (.ok (), match h.object? id with
          | some o =>
            h.replaceNode id (.object { o with prototype := p })
              (o.prototype.toList.map Pending.reference)
          | none => h) := by
  unfold HeapM.setPrototype
  by_cases hc : h.closesCycle id p = true
  · rw [if_pos hc]
    show StateT.run (if h.closesCycle id p = true then _ else _) h = _
    rw [if_pos hc]
    rfl
  · rw [if_neg hc]
    show StateT.run (if h.closesCycle id p = true then _ else _) h = _
    rw [if_neg hc]
    cases h.object? id with
    | none => rfl
    | some o => rfl

theorem setPrototype_refused_iff {p : Option NodeId} :
    ((HeapM.setPrototype id p).run h).1 = .error .prototypeCycle ↔ h.closesCycle id p = true := by
  rw [run_setPrototype]
  by_cases hc : h.closesCycle id p = true
  · simp [hc]
  · simp [hc]

theorem setPrototype_refused {p : Option NodeId}
    (hr : ((HeapM.setPrototype id p).run h).1 = .error .prototypeCycle) :
    ((HeapM.setPrototype id p).run h).2 = h := by
  rw [run_setPrototype, if_pos (setPrototype_refused_iff.mp hr)]

theorem assignField_ignored (hv : v ≠ .null)
    (hp : ∀ p, v = .object p →
      ((HeapM.setPrototype id (some p)).run h).1 = .error .prototypeCycle) :
    ((HeapM.assignField id protoKey v).run h).2 = h := by
  unfold HeapM.assignField
  rw [if_pos rfl]
  cases v with
  | null => exact absurd rfl hv
  | object p => exact setPrototype_refused (hp p rfl)
  | _ => rfl

/-! ## Loops that end -/

theorem isSome_findSome?_guard (p : NodeId → Bool) (xs : List NodeId) :
    (xs.findSome? (Option.guard p)).isSome = xs.any p := by
  rw [List.findSome?_guard, List.isSome_find?]

/-- **Chains end on a sound heap.** -/
theorem Sound.chainsEnd (hs : h.Sound held) : h.ChainsEnd where
  acyclic := hs.acyclic
  lookup := by
    intro id key ho
    refine ⟨_, (hs.walk_iff fun x hx => Option.some.inj hx ▸ ho).mpr rfl, ?_⟩
    rfl
  getter := by
    intro id key ho
    exact (hs.walk_iff fun x hx => Option.some.inj hx ▸ ho).mpr rfl
  setter := by
    intro id key ho
    exact (hs.walk_iff fun x hx => Option.some.inj hx ▸ ho).mpr rfl
  instances := by
    intro id callable ⟨o, ho⟩
    have hproto : h.prototype? id = o.prototype := by
      rw [prototype?, ho]
      rfl
    refine ⟨_, (hs.walk_iff fun p hp => hs.object_of_prototype? hp).mpr rfl, ?_⟩
    rw [isSome_findSome?_guard, isInstanceOf, hs.tail_chain ho, hproto]
  check := by
    intro id p hp
    refine ⟨_, (hs.walk_iff fun x hx => Option.some.inj hx ▸ hp).mpr rfl, ?_⟩
    rw [isSome_findSome?_guard, closesCycle, List.contains_eq_any_beq]
  refused_iff := by
    intro id p _ hp
    rw [setPrototype_refused_iff, hs.closesCycle_iff]
    constructor
    · rintro ⟨start, he, _, hpath⟩
      exact Option.some.inj he ▸ hpath
    · intro hpath
      exact ⟨p, rfl, hp, hpath⟩
  refused := fun id p hr => setPrototype_refused hr
  ignored := fun id v hv hp => assignField_ignored hv hp

end Heap

/-- **Chains end in every session**, whatever steps it has taken. -/
theorem Session.chainsEnd_run (steps : List Step) :
    (Session.initial.run steps).2.heap.ChainsEnd :=
  (reachable_run steps).sound.chainsEnd

end ScriptCore
