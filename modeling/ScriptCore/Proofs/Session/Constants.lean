import ScriptCore.Proofs.Scopes.Assignment

/-!
# Constants

No move changes a constant (`Heap.Move.keepsConstant`), nor does attaching or clearing a payload, or
binding a function. It is only defining that name in that very scope that can (`Session.definitions`
lists what a run defines), and so a constant stays through a run that does not
(`Session.constant_run`). With what assigning does at any point of a run, that is what there is to
know of variables (`Session.assignment_scoped`).
-/

namespace ScriptCore

namespace Heap

variable {h k : Heap} {id p : NodeId} {old node : Node} {b : Binding} {name other : String}
  {payload : Payload}

/-- As long as a node is there it is a scope with a certain variable. -/
structure HasVariable (p : NodeId) (name : String) (b : Binding) (h : Heap) : Prop where
  lt_size : p < h.cells.size
  binding : ∀ {node : Node}, h.node? p = some node → node.binding? name = some b

theorem HasVariable.of_changes {becomes : NodeId → Node → Node → Prop}
    (hh : HasVariable p name b h) (hc : Changes becomes h k)
    (hb : ∀ old node, becomes p old node → old.binding? name = some b →
      node.binding? name = some b) : HasVariable p name b k where
  lt_size := hh.lt_size.trans_le hc.size_le
  binding := hc.carries hh.lt_size hh.binding hb

/-- **Moves leave constants alone.** -/
theorem Move.keepsConstant (hm : Move h k) (hb : b.isMutable = false)
    (hh : HasVariable p name b h) : HasVariable p name b k :=
  hh.of_changes hm.changes fun _ _ hs hold => hs.constants hold hb

theorem Define.keepsVariable (hd : Define id other h k) (hne : (id, other) ≠ (p, name))
    (hh : HasVariable p name b h) : HasVariable p name b k := by
  refine hh.of_changes hd.changes fun old node hb hold => ?_
  rcases hb with rfl | ⟨rfl, s, c, rfl, rfl⟩
  · exact hold
  · have hname : name ≠ other := by
      rintro rfl
      exact hne rfl
    exact (Fields.get?_insert_ne _ _ hname).trans hold

theorem Attach.keepsVariable (ha : Attach id payload h k) (hh : HasVariable p name b h) :
    HasVariable p name b k := by
  refine hh.of_changes ha.changes fun old node hb hold => ?_
  rcases hb with rfl | ⟨-, o, rfl, rfl⟩ <;> exact hold

theorem Detach.keepsVariable (hd : Detach id h k) (hh : HasVariable p name b h) :
    HasVariable p name b k := by
  refine hh.of_changes hd.changes fun old node hb hold => ?_
  rcases hb with rfl | ⟨-, o, rfl, rfl⟩ <;> exact hold

theorem Bind.keepsVariable {v : Value} (hb : Bind id v h k) (hh : HasVariable p name b h) :
    HasVariable p name b k := by
  refine hh.of_changes hb.changes fun old node hbecomes hold => ?_
  rcases hbecomes with rfl | ⟨-, o, f, rfl, -, -, rfl⟩ <;> exact hold

end Heap

abbrev History.constant (p : NodeId) (name : String) {b : Binding} (hb : b.isMutable = false) :
    History := ⟨Heap.HasVariable p name b, fun hm hh => hm.keepsConstant hb hh⟩

namespace Session

/-- What the steps of a run define, in order: each scope with the name. -/
def definitions (s : Session) : List Step → List (NodeId × String)
  | [] => []
  | step :: rest => (s.definition? step.request).toList ++ (s.step step).2.definitions rest

variable {p : NodeId} {name : String} {b : Binding}

theorem allowsRun_constant (hb : b.isMutable = false) (steps : List Step) : ∀ s : Session,
    (p, name) ∉ s.definitions steps → @AllowsRun (.constant p name hb) s steps := by
  induction steps with
  | nil => exact fun _ _ => trivial
  | cons step rest ih =>
    intro s hd
    rw [definitions, List.mem_append, not_or] at hd
    obtain ⟨hfirst, hrest⟩ := hd
    refine ⟨@Allows.mk (.constant p name hb) s step.request (fun _ ha => ha.keepsVariable)
      (fun _ hd => hd.keepsVariable) (fun {id other h k} hmade hd => hd.keepsVariable ?_)
      fun _ hb => hb.keepsVariable, ih _ hrest⟩
    intro he
    exact hfirst (he ▸ Option.mem_toList.mpr hmade)

/-- **A constant stays through a run** that does not define its name in its scope. -/
theorem constant_run {s : Session} (ha : Agree [] s s) (hb : b.isMutable = false)
    (hown : s.heap.ownBinding? p name = some b) (more : List Step)
    (hd : (p, name) ∉ s.definitions more) (hlive : ((s.run more).2.heap.scope? p).isSome) :
    (s.run more).2.heap.ownBinding? p name = some b := by
  obtain ⟨scope, hs, hget⟩ := Option.bind_eq_some_iff.mp hown
  have hn := Heap.scope?_eq_some_iff.mp hs
  have hstart : Heap.HasVariable p name b s.heap := by
    refine ⟨Heap.lt_size_of_node? hn, fun {node} hnode => ?_⟩
    obtain rfl := Option.some.inj (hn.symm.trans hnode)
    exact hget
  let history : History := .constant p name hb
  have hend : Heap.HasVariable p name b (s.run more).2.heap :=
    admits_run ha hstart (allowsRun_constant hb more s hd)
  obtain ⟨scope', hs'⟩ := Option.isSome_iff_exists.mp hlive
  rw [Heap.ownBinding?, hs', Option.bind_some]
  exact hend.binding (Heap.scope?_eq_some_iff.mp hs')

/-- **Assigning is scoped.** After any steps, a name is looked for from a scope that can be reached. The
walk outward ends, in one way only, and reading reads what it finds. Assigning changes that one variable
if it is no constant, and is refused otherwise with nothing changed (`Heap.Assigned`); all scopes that
the host holds are alive afterwards. And whatever a run does next, a constant stays what it is for as
long as its scope is alive, unless that name is defined in that very scope. -/
theorem assignment_scoped (steps : List Step) {e : NodeId} {v : Value}
    (he : (initial.run steps).2.heap.Sees (initial.run steps).2.links (.scope e))
    (hv : v.links ⊆ (initial.run steps).2.links) (name : String) :
    let s := (initial.run steps).2
    let run := (HeapM.assignVariable e name v).run s.heap
    (∃ found, (∀ other, s.heap.Resolves name e other ↔ other = found) ∧
      s.heap.readVariable e name = found.map (fun at' => at'.2.value) ∧
      s.heap.Assigned name v found run ∧
      ∀ z, .scope z ∈ s.links → (run.2.scope? z).isSome) ∧
    ∀ (p : NodeId) (x : String) (b : Binding) (more : List Step),
      s.heap.ownBinding? p x = some b → b.isMutable = false → (p, x) ∉ s.definitions more →
        ((s.run more).2.heap.scope? p).isSome → (s.run more).2.heap.ownBinding? p x = some b := by
  have hh := hosted steps
  obtain ⟨found, hr⟩ := hh.nested.exists_resolves name e
  obtain ⟨hassigned, hk⟩ := hh.assigned he hv hr
  refine ⟨⟨found, fun other => ⟨hr.unique, fun heq => heq ▸ hr⟩, hh.nested.readVariable_eq hr,
    hassigned, fun z hz => Option.isSome_iff_exists.mpr (hk.exists_scope hz)⟩, ?_⟩
  intro p x b more hown hb hd hlive
  exact constant_run (agree_run steps) hb hown more hd hlive

/-- A count in a scope, a constant of that name in a scope inside it, and one more scope inside the
first. -/
def shadowed : List Step :=
  [⟨.scope (.create "outer" none), none, none⟩,
    ⟨.scope (.define "outer" (.integer 1) "count" true), none, none⟩,
    ⟨.scope (.create "fixed" (some "outer")), none, none⟩,
    ⟨.scope (.define "fixed" (.integer 5) "count" false), none, none⟩,
    ⟨.scope (.create "inner" (some "outer")), none, none⟩]

/-- Assigning from inside is seen from the scope around, and not where a constant is nearer. There it is
refused, although the count further out could be assigned to; and the constant stays, whatever is
assigned and defined next. -/
theorem assignment_scoped_shadowed :
    let s := (initial.run shadowed).2
    (∃ k, (HeapM.assignVariable 2 "count" (.integer 9)).run s.heap = (.ok (), k) ∧
      k.readVariable 0 "count" = some (.integer 9) ∧
      k.readVariable 1 "count" = some (.integer 5)) ∧
    (HeapM.assignVariable 1 "count" (.integer 9)).run s.heap =
      (.error (.constAssignment "count"), s.heap) ∧
    (s.run [⟨.scope (.assign "fixed" (.integer 9) "count"), none, none⟩,
      ⟨.scope (.define "outer" (.integer 7) "count" false), none, none⟩]).2.heap.ownBinding? 1
        "count" = some ⟨.integer 5, false⟩ := by
  have hheld : ∀ z < 3, Link.scope z ∈ (initial.run shadowed).2.links := by decide +kernel
  have hscalar : (Value.integer 9).links ⊆ (initial.run shadowed).2.links := List.nil_subset _
  have houter : (initial.run shadowed).2.heap.ownBinding? 0 "count" = some ⟨.integer 1, true⟩ := by
    decide +kernel
  have hfixed : (initial.run shadowed).2.heap.ownBinding? 1 "count" = some ⟨.integer 5, false⟩ := by
    decide +kernel
  have hread : (initial.run shadowed).2.heap.readVariable 1 "count" = some (.integer 5) := by
    decide +kernel
  refine ⟨?_, ?_, ?_⟩
  · obtain ⟨⟨found, hfound, -, hassigned, hlive⟩, -⟩ :=
      assignment_scoped shadowed (.held (hheld 2 (by decide))) hscalar "count"
    obtain rfl := (hfound (some (0, ⟨.integer 1, true⟩))).mp
      (.outward (by decide +kernel) (by decide +kernel) (.bound houter))
    rcases hrun : (HeapM.assignVariable 2 "count" (.integer 9)).run (initial.run shadowed).2.heap
      with ⟨answer, k⟩
    rw [hrun] at hassigned hlive
    cases hassigned with
    | mutable _ _ hnew hold =>
      refine ⟨k, rfl, hnew 0 (hlive 0 (hheld 0 (by decide))) (.bound houter), ?_⟩
      refine (hold 1 "count" (hlive 1 (hheld 1 (by decide))) ?_).trans hread
      rintro ⟨-, hr⟩
      cases hr.unique (.bound hfixed)
    | constant hb => cases hb
  · obtain ⟨⟨found, hfound, -, hassigned, -⟩, -⟩ :=
      assignment_scoped shadowed (.held (hheld 1 (by decide))) hscalar "count"
    obtain rfl := (hfound (some (1, ⟨.integer 5, false⟩))).mp (.bound hfixed)
    rcases hrun : (HeapM.assignVariable 1 "count" (.integer 9)).run (initial.run shadowed).2.heap
      with ⟨answer, k⟩
    rw [hrun] at hassigned
    cases hassigned with
    | mutable hb => cases hb
    | constant => rfl
  · exact (assignment_scoped shadowed (.held (hheld 1 (by decide))) hscalar "count").2 1 "count" _ _
      hfixed rfl (by decide +kernel) (by decide +kernel)

end Session

end ScriptCore
