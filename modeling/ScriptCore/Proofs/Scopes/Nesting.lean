import ScriptCore.Proofs.Agreement.WholeSteps

/-!
# Scopes inside scopes

A scope is made inside one that is there already, and stays where it is. So the scope around a scope
is older, after every move (`Move.nested`) and in every run (`Session.nested_agree`). Going outward
comes to an end, then, and does so within as many steps as there are older nodes: the walk does not
depend on how many it is given (`Nested.scopes_cons`), and meets no scope twice
(`Nested.nodup_scopes`).
-/

namespace ScriptCore

namespace Heap

variable {h k : Heap} {id z : NodeId} {s : Scope} {old node : Node} {p : Payload}

/-- The scope around a scope is older than it. -/
structure Nested (h : Heap) : Prop where
  older : ∀ {id : NodeId} {node : Node} {outer : NodeId}, h.node? id = some node →
    node.outer? = some outer → outer < id

namespace Nested

theorem initial : Heap.initial.Nested := ⟨fun hn _ => by simp [node?, cell?, Heap.initial] at hn⟩

theorem of_changes {becomes : NodeId → Node → Node → Prop} (hh : h.Nested)
    (hc : Changes becomes h k)
    (hb : ∀ id old node, becomes id old node → node.outer? = old.outer?) : k.Nested where
  older {id node outer} hn ho := by
    rcases hc.nodes hn with ⟨old, hold, hbecomes⟩ | ⟨hle, -, hl⟩
    · exact hh.older hold ((hb id old node hbecomes).symm.trans ho)
    · cases node with
      | object o => cases ho
      | scope s =>
        have hm : Link.scope outer ∈ (Node.scope s).links :=
          Scope.mem_links_iff.mpr (Or.inr ⟨outer, ho, rfl⟩)
        exact (lt_size_of_isLive (hl _ hm).isLive).trans_le hle

end Nested

/-- **Moves leave scopes nested.** -/
theorem Move.nested (hm : Move h k) (hh : h.Nested) : k.Nested :=
  hh.of_changes hm.changes fun _ _ _ hs => hs.outer

theorem Define.nested {name : String} (hd : Define id name h k) (hh : h.Nested) : k.Nested := by
  refine hh.of_changes hd.changes fun x old node hb => ?_
  rcases hb with rfl | ⟨-, s, b, rfl, rfl⟩ <;> rfl

theorem Attach.nested (ha : Attach id p h k) (hh : h.Nested) : k.Nested := by
  refine hh.of_changes ha.changes fun x old node hb => ?_
  rcases hb with rfl | ⟨-, o, rfl, rfl⟩ <;> rfl

theorem Detach.nested (hd : Detach id h k) (hh : h.Nested) : k.Nested := by
  refine hh.of_changes hd.changes fun x old node hb => ?_
  rcases hb with rfl | ⟨-, o, rfl, rfl⟩ <;> rfl

theorem Bind.nested {v : Value} (hb : Bind id v h k) (hh : h.Nested) : k.Nested := by
  refine hh.of_changes hb.changes fun x old node hbecomes => ?_
  rcases hbecomes with rfl | ⟨-, o, f, rfl, -, -, rfl⟩ <;> rfl

end Heap

abbrev History.nesting : History := ⟨Heap.Nested, fun hm hh => hm.nested hh⟩

namespace Session

theorem allows_nesting (s : Session) (r : Request) : @Allows .nesting s r :=
  @Allows.mk .nesting s r (fun _ ha => ha.nested) (fun _ hd => hd.nested) (fun _ hd => hd.nested)
    fun _ hb => hb.nested

/-- **Scopes are nested in every run.** -/
theorem nested_agree (steps : List Step) :
    @Agree .nesting [] (Session.initial.run steps).2 (Session.initial.run steps).2 := by
  let history : History := .nesting
  exact (Agree.initial Heap.Nested.initial).run steps (allowsRun_of_forall allows_nesting steps _)

end Session

namespace Heap

variable {h : Heap} {id z : NodeId} {s : Scope}

/-! ## Going outward -/

theorem scopes_of_not_scope (hs : h.scope? id = none) : h.scopes id = [] := by
  rw [scopes]
  cases h.cells.size with
  | zero => rfl
  | succ size => rw [scopesFrom, hs]

theorem scopesFrom_none (h : Heap) (fuel : Nat) : h.scopesFrom fuel none = [] := by
  cases fuel <;> rfl

namespace Nested

theorem outer_lt (hn : h.Nested) (hs : h.scope? id = some s) {outer : NodeId}
    (ho : s.outer = some outer) : outer < id := hn.older (scope?_eq_some_iff.mp hs) ho

theorem scopesFrom_of_lt (hn : h.Nested) : ∀ (id fuel : Nat), id < fuel →
    h.scopesFrom fuel (some id) = h.scopesFrom (id + 1) (some id) := by
  intro id
  induction id using Nat.strong_induction_on with
  | _ id ih =>
    intro fuel hlt
    obtain ⟨less, rfl⟩ : ∃ less, fuel = less + 1 := ⟨fuel - 1, by omega⟩
    rw [scopesFrom, scopesFrom]
    cases hs : h.scope? id with
    | none => rfl
    | some s =>
      refine congrArg (id :: ·) ?_
      cases ho : s.outer with
      | none => rw [scopesFrom_none, scopesFrom_none]
      | some outer =>
        have hlt' := hn.outer_lt hs ho
        rw [ih outer hlt' less (hlt'.trans_le (Nat.le_of_lt_succ hlt)), ih outer hlt' id hlt']

/-- **A scope, and then the scopes around the one around it.** -/
theorem scopes_cons (hn : h.Nested) (hs : h.scope? id = some s) :
    h.scopes id = id :: s.outer.toList.flatMap h.scopes := by
  have hsize : id < h.cells.size := lt_size_of_node? (scope?_eq_some_iff.mp hs)
  rw [scopes, hn.scopesFrom_of_lt id _ hsize, scopesFrom, hs]
  refine congrArg (id :: ·) ?_
  cases ho : s.outer with
  | none => exact scopesFrom_none h id
  | some outer =>
    have hlt := hn.outer_lt hs ho
    rw [Option.toList_some, List.flatMap_singleton, scopes, hn.scopesFrom_of_lt outer _ hlt,
      hn.scopesFrom_of_lt outer _ (hlt.trans hsize)]

theorem scopes_induction (hn : h.Nested) {P : NodeId → Prop}
    (hstep : ∀ id s, h.scope? id = some s → (∀ outer, s.outer = some outer → P outer) → P id)
    (hnone : ∀ id, h.scope? id = none → P id) (id : NodeId) : P id := by
  induction id using Nat.strong_induction_on with
  | _ id ih =>
    cases hs : h.scope? id with
    | none => exact hnone id hs
    | some s => exact hstep id s hs fun outer ho => ih outer (hn.outer_lt hs ho)

theorem le_of_mem_scopes (hn : h.Nested) (hz : z ∈ h.scopes id) : z ≤ id := by
  induction id using hn.scopes_induction with
  | hstep id s hs ih =>
    rw [hn.scopes_cons hs, List.mem_cons] at hz
    rcases hz with rfl | hz
    · exact le_rfl
    · obtain ⟨outer, ho, hz⟩ := List.mem_flatMap.mp hz
      have ho := Option.mem_toList.mp ho
      exact (ih outer ho hz).trans (hn.outer_lt hs ho).le
  | hnone id hs =>
    rw [scopes_of_not_scope hs] at hz
    cases hz

theorem nodup_scopes (hn : h.Nested) (id : NodeId) : (h.scopes id).Nodup := by
  induction id using hn.scopes_induction with
  | hstep id s hs ih =>
    rw [hn.scopes_cons hs]
    cases ho : s.outer with
    | none => simp
    | some outer =>
      rw [Option.toList_some, List.flatMap_singleton]
      refine List.nodup_cons.mpr ⟨fun hm => ?_, ih outer ho⟩
      exact absurd (hn.le_of_mem_scopes hm) (Nat.not_le.mpr (hn.outer_lt hs ho))
  | hnone id hs =>
    rw [scopes_of_not_scope hs]
    exact List.nodup_nil

theorem scope_of_mem_scopes (hn : h.Nested) (hz : z ∈ h.scopes id) : ∃ s, h.scope? z = some s := by
  induction id using hn.scopes_induction with
  | hstep id s hs ih =>
    rw [hn.scopes_cons hs, List.mem_cons] at hz
    rcases hz with rfl | hz
    · exact ⟨s, hs⟩
    · obtain ⟨outer, ho, hz⟩ := List.mem_flatMap.mp hz
      exact ih outer (Option.mem_toList.mp ho) hz
  | hnone id hs =>
    rw [scopes_of_not_scope hs] at hz
    cases hz

end Nested

end Heap

end ScriptCore
