import ScriptCore.Proofs.Scopes.Increments

/-!
# Looking outward for a variable, and assigning to it

Which variable a name stands for in a scope is said by a walk outward that stops at the first variable
of the name (`Heap.Resolves`). From every scope there is one such walk and no other, for scopes are
nested: reading comes to an end, and reads what the walk finds (`Heap.Nested.resolves_iff`).

Assigning is a walk too, and it is the variable found that decides (`Heap.Assigned`). It is refused,
with nothing changed, where no variable or a constant was found; a variable further out does not help.
Otherwise one variable is another afterwards. Whoever looked for the name and found that variable reads
the new value, and all the rest read what they read before (`Heap.Hosted.assigned`): the scopes are
where they were, and have variables of the names they had.
-/

namespace ScriptCore

namespace Heap

variable {h k : Heap} {id p z : NodeId} {s : Scope} {b : Binding} {v : Value} {name other : String}
  {links held held' : List Link} {found found' : Option (NodeId × Binding)}

/-- The walk from a scope outward to the nearest variable of a name: where it is and what it is, or
that there is none. -/
inductive Resolves (h : Heap) (name : String) : NodeId → Option (NodeId × Binding) → Prop
  | bound {id : NodeId} {b : Binding} (hb : h.ownBinding? id name = some b) :
      Resolves h name id (some (id, b))
  | outward {id outer : NodeId} {found : Option (NodeId × Binding)}
      (hb : h.ownBinding? id name = none) (ho : h.outerScope? id = some outer)
      (hr : Resolves h name outer found) : Resolves h name id found
  | unbound {id : NodeId} (hb : h.ownBinding? id name = none) (ho : h.outerScope? id = none) :
      Resolves h name id none

/-- What it is to assign a value to what was found for a name: the answer, and the heap afterwards. -/
inductive Assigned (h : Heap) (name : String) (v : Value) :
    Option (NodeId × Binding) → Except Error Unit × Heap → Prop
  | unknown : Assigned h name v none (.error (.undefinedVariable name), h)
  | constant {p : NodeId} {b : Binding} (hb : b.isMutable = false) :
      Assigned h name v (some (p, b)) (.error (.constAssignment name), h)
  /-- Of all variables in scopes that are still alive, this one is another. A scope reads the new value
  if it finds this very variable, and what it read before otherwise. -/
  | mutable {p : NodeId} {b : Binding} {k : Heap} (hb : b.isMutable = true)
      (hown : ∀ z other, (k.scope? z).isSome → k.ownBinding? z other =
        if z = p ∧ other = name then some ⟨v, true⟩ else h.ownBinding? z other)
      (hread : ∀ z, (k.scope? z).isSome → h.Resolves name z (some (p, b)) →
        k.readVariable z name = some v)
      (hother : ∀ z other, (k.scope? z).isSome →
        ¬(other = name ∧ h.Resolves name z (some (p, b))) →
          k.readVariable z other = h.readVariable z other) :
      Assigned h name v (some (p, b)) (.ok (), k)

/-! ## The walk -/

/-- The walk goes one way only. -/
theorem Resolves.unique (hr : h.Resolves name id found) (hr' : h.Resolves name id found') :
    found' = found := by
  induction hr with
  | bound hb =>
    cases hr' with
    | bound hb' => rw [Option.some.inj (hb.symm.trans hb')]
    | outward hb' => cases hb.symm.trans hb'
    | unbound hb' => cases hb.symm.trans hb'
  | outward hb ho hr ih =>
    cases hr' with
    | bound hb' => cases hb.symm.trans hb'
    | outward hb' ho' hr' =>
      obtain rfl := Option.some.inj (ho.symm.trans ho')
      exact ih hr'
    | unbound hb' ho' => cases ho.symm.trans ho'
  | unbound hb ho =>
    cases hr' with
    | bound hb' => cases hb.symm.trans hb'
    | outward hb' ho' => cases ho.symm.trans ho'
    | unbound => rfl

theorem Resolves.ownBinding?_eq (hr : h.Resolves name id (some (p, b))) :
    h.ownBinding? p name = some b := by
  generalize hfound : some (p, b) = found at hr
  induction hr with
  | bound hb =>
    obtain ⟨rfl, rfl⟩ := Prod.mk.inj (Option.some.inj hfound)
    exact hb
  | outward hb ho hr ih => exact ih hfound
  | unbound => cases hfound

theorem Nested.bindingScope?_eq (hn : h.Nested) (id : NodeId) (name : String) :
    h.bindingScope? id name = if (h.ownBinding? id name).isSome then some id
      else (h.outerScope? id).bind fun outer => h.bindingScope? outer name := by
  cases hs : h.scope? id with
  | none => simp [bindingScope?, scopes_of_not_scope hs, ownBinding?, outerScope?, hs]
  | some s =>
    have houter : h.outerScope? id = s.outer := by rw [outerScope?, hs, Option.bind_some]
    rw [bindingScope?, hn.scopes_cons hs, List.find?_cons, houter]
    cases (h.ownBinding? id name).isSome with
    | true => rfl
    | false =>
      cases s.outer with
      | none => rfl
      | some outer =>
        rw [Option.toList_some, List.flatMap_singleton]
        rfl

/-- **The walk comes to an end** from every scope. -/
theorem Nested.exists_resolves (hn : h.Nested) (name : String) (id : NodeId) :
    ∃ found, h.Resolves name id found := by
  induction id using hn.scopes_induction with
  | hstep id s hs ih =>
    cases hb : h.ownBinding? id name with
    | some b => exact ⟨_, .bound hb⟩
    | none =>
      have houter : h.outerScope? id = s.outer := by rw [outerScope?, hs, Option.bind_some]
      cases ho : s.outer with
      | none => exact ⟨none, .unbound hb (houter.trans ho)⟩
      | some outer =>
        obtain ⟨found, hr⟩ := ih outer ho
        exact ⟨found, .outward hb (houter.trans ho) hr⟩
  | hnone id hs =>
    refine ⟨none, .unbound ?_ ?_⟩
    · rw [ownBinding?, hs, Option.bind_none]
    · rw [outerScope?, hs, Option.bind_none]

theorem Nested.bindingScope?_of_resolves (hn : h.Nested) (hr : h.Resolves name id found) :
    h.bindingScope? id name = found.map Prod.fst := by
  induction hr with
  | bound hb => rw [hn.bindingScope?_eq, hb, Option.isSome_some, if_pos rfl, Option.map_some]
  | outward hb ho hr ih => rwa [hn.bindingScope?_eq, hb, ho]
  | unbound hb ho =>
    rw [hn.bindingScope?_eq, hb, ho]
    rfl

/-- **Reading a variable** reads what the walk finds. -/
theorem Nested.readVariable_eq (hn : h.Nested) (hr : h.Resolves name id found) :
    h.readVariable id name = found.map fun at' => at'.2.value := by
  rw [readVariable, hn.bindingScope?_of_resolves hr]
  cases found with
  | none => rfl
  | some at' =>
    rw [Option.map_some, Option.bind_some, hr.ownBinding?_eq]
    rfl

theorem Nested.resolves_iff (hn : h.Nested) :
    h.Resolves name id (some (p, b)) ↔
      h.bindingScope? id name = some p ∧ h.ownBinding? p name = some b := by
  constructor
  · intro hr
    exact ⟨hn.bindingScope?_of_resolves hr, hr.ownBinding?_eq⟩
  · rintro ⟨hp, hb⟩
    obtain ⟨found, hr⟩ := hn.exists_resolves name id
    have hfound := (hn.bindingScope?_of_resolves hr).symm.trans hp
    obtain ⟨⟨q, c⟩, rfl, rfl⟩ := Option.map_eq_some_iff.mp hfound
    obtain rfl := Option.some.inj (hr.ownBinding?_eq.symm.trans hb)
    exact hr

/-! ## One variable is another -/

/-- A variable of a scope is written that it has already, with what is lost by that let go. -/
structure Overwrites (p : NodeId) (name : String) (v : Value) (h k : Heap) : Prop where
  rebinds : Rebinds (· = p) h k
  size : k.cells.size = h.cells.size
  had : (h.ownBinding? p name).isSome
  own : ∀ other, (k.scope? p).isSome →
    k.ownBinding? p other = if other = name then some ⟨v, true⟩ else h.ownBinding? p other

theorem Hosted.overwrites (hh : Hosted links h) (hs : h.Sees links (.scope p))
    (hv : v.links ⊆ links) (hb : h.ownBinding? p name = some b) (hm : b.isMutable = true) :
    Hosted links (h.setBinding p name ⟨v, true⟩) ∧
      Overwrites p name v h (h.setBinding p name ⟨v, true⟩) := by
  obtain ⟨s, hscope, hbs⟩ := Option.bind_eq_some_iff.mp hb
  have hmutable : ∀ old, s.bindings.get? name = some old → old.isMutable = true :=
    fun old hold => Option.some.inj (hbs.symm.trans hold) ▸ hm
  obtain ⟨hk, hr, hsize, hwritten⟩ := hh.setBinding hs hscope hv hmutable
  refine ⟨hk, hr, hsize, hb ▸ rfl, fun other hlive => ?_⟩
  obtain ⟨s', hs'⟩ := Option.isSome_iff_exists.mp hlive
  obtain rfl := hwritten s' hs'
  rw [ownBinding?, ownBinding?, hs', hscope, Option.bind_some, Option.bind_some]
  by_cases he : other = name
  · rw [if_pos he, he, Fields.get?_insert_self]
  · rw [if_neg he, Fields.get?_insert_ne _ _ he]

namespace Overwrites

variable (ho : Overwrites p name v h k) (hh : Hosted held h) (hk : Hosted held' k)

include ho

theorem lt_size (hz : (k.scope? z).isSome) : z < h.cells.size := by
  obtain ⟨s, hs⟩ := Option.isSome_iff_exists.mp hz
  exact ho.size ▸ lt_size_of_node? (scope?_eq_some_iff.mp hs)

theorem ownBinding?_eq (hz : (k.scope? z).isSome) (other : String) :
    k.ownBinding? z other =
      if z = p ∧ other = name then some ⟨v, true⟩ else h.ownBinding? z other := by
  by_cases he : z = p
  · subst he
    simp only [ho.own other hz, true_and]
  · obtain ⟨s, hs⟩ := Option.isSome_iff_exists.mp hz
    rw [if_neg fun hc => he hc.1, ownBinding?, ownBinding?, hs,
      ho.rebinds.scope?_eq (ho.lt_size hz) hs he]

include hh hk

theorem bindingScope?_eq (hz : (k.scope? z).isSome) (other : String) :
    k.bindingScope? z other = h.bindingScope? z other := by
  have hscopes := ho.rebinds.scopes_eq hh hk (ho.lt_size hz) (Option.isSome_iff_exists.mp hz)
  rw [bindingScope?, bindingScope?, ← hscopes]
  refine List.find?_congr fun x hx => ?_
  have hlive := Option.isSome_iff_exists.mpr (hk.nested.scope_of_mem_scopes hx)
  rw [ho.ownBinding?_eq hlive]
  -- Where the variable is another now, there was one of that name before.
  split_ifs with hc
  · rw [hc.1, hc.2, ho.had]
    rfl
  · rfl

/-- **What is read afterwards**: the new value where the variable written was found, and what was read
before everywhere else. -/
theorem readVariable_eq (hz : (k.scope? z).isSome) (other : String) :
    k.readVariable z other =
      if other = name ∧ h.bindingScope? z name = some p then some v else h.readVariable z other := by
  rw [readVariable, readVariable, ho.bindingScope?_eq hh hk hz]
  cases hb : h.bindingScope? z other with
  | none =>
    rw [if_neg]
    · rfl
    · rintro ⟨rfl, hp⟩
      cases hb.symm.trans hp
  | some q =>
    have hq : q ∈ k.scopes z :=
      List.mem_of_find?_eq_some ((ho.bindingScope?_eq hh hk hz other).trans hb)
    have hlive := Option.isSome_iff_exists.mpr (hk.nested.scope_of_mem_scopes hq)
    rw [Option.bind_some, Option.bind_some, ho.ownBinding?_eq hlive]
    by_cases he : other = name
    · subst he
      simp only [hb, Option.some.injEq, and_true, true_and]
      split_ifs <;> rfl
    · simp only [he, and_false, false_and, if_false]

end Overwrites

/-! ## Assigning -/

/-- **Assigning to a variable** does to what the walk finds what it is to assign, and all that is held
is alive afterwards. -/
theorem Hosted.assigned (hh : Hosted links h) (hx : h.Sees links (.scope id)) (hv : v.links ⊆ links)
    (hr : h.Resolves name id found) :
    let run := (HeapM.assignVariable id name v).run h
    h.Assigned name v found run ∧ Hosted links run.2 := by
  let history : History := .nesting
  cases found with
  | none =>
    rw [run_assignVariable_of_none (hh.nested.bindingScope?_of_resolves hr)]
    exact ⟨.unknown, hh⟩
  | some at' =>
    obtain ⟨p, b⟩ := at'
    obtain ⟨hp, hb⟩ := hh.nested.resolves_iff.mp hr
    rw [run_assignVariable_of_some hp, hb, Option.any_some]
    by_cases hm : b.isMutable = true
    · rw [if_pos hm]
      -- The scope found need not be held itself, but is around one that is seen.
      have hsees : h.Sees links (.scope p) := hh.agree.toMatches.sees_bindingScope? hx hp
      obtain ⟨hk, ho⟩ := hh.overwrites hsees hv hb hm
      refine ⟨.mutable hm (fun z other hz => ho.ownBinding?_eq hz other) (fun z hz hfound => ?_)
        fun z other hz hnot => ?_, hk⟩
      · rw [ho.readVariable_eq hh hk hz, if_pos ⟨rfl, (hh.nested.resolves_iff.mp hfound).1⟩]
      · rw [ho.readVariable_eq hh hk hz, if_neg]
        rintro ⟨he, hfound⟩
        exact hnot ⟨he, hh.nested.resolves_iff.mpr ⟨hfound, hb⟩⟩
    · rw [if_neg hm]
      exact ⟨.constant (Bool.not_eq_true _ ▸ hm), hh⟩

end Heap

end ScriptCore
