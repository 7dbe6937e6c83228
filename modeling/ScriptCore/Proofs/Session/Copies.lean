import ScriptCore.Proofs.Session.Binding

/-!
# Copies in a session

Nothing that can be done to a function changes what it is told apart by: no move does, and neither does
attaching or clearing a payload, defining a variable or binding a function. So a function keeps its
identity through every run (`Session.identity_run`).

A copy of a compiled function has the identity of the function. The **family** of a function in a run
is the function, the copies that the run makes of it, and the copies of those (`Session.family`). All
of a family have one identity (`Session.identity_family`), and so they are level with one another in
the order of callables (`Session.functions_in_order`).
-/

namespace ScriptCore

namespace Heap

variable {h k : Heap} {id other : NodeId} {i : CallableIdentity} {f : Callable} {v : Value}
  {payload : Payload} {name : String}

/-- As long as a node is there it is a function with a certain identity. -/
structure HasIdentity (id : NodeId) (i : CallableIdentity) (h : Heap) : Prop where
  lt_size : id < h.cells.size
  identity : ∀ {node : Node}, h.node? id = some node → node.identity? = some i

namespace HasIdentity

theorem of_callableOf? (hf : h.callableOf? id = some f) : HasIdentity id f.identity h := by
  obtain ⟨o, ho, hf⟩ := Option.bind_eq_some_iff.mp hf
  have hn := object?_eq_some_iff.mp ho
  refine ⟨lt_size_of_node? hn, fun {node} hnode => ?_⟩
  obtain rfl := Option.some.inj (hn.symm.trans hnode)
  rw [Node.identity?, hf, Option.map_some]

theorem identity_eq (hh : HasIdentity id i h) (hf : h.callableOf? id = some f) : f.identity = i := by
  obtain ⟨o, ho, hf⟩ := Option.bind_eq_some_iff.mp hf
  have hi := hh.identity (object?_eq_some_iff.mp ho)
  rw [Node.identity?, hf, Option.map_some] at hi
  exact Option.some.inj hi

theorem exists_callable (hh : HasIdentity id i h) (hl : h.isLive id = true) :
    ∃ f, h.callableOf? id = some f ∧ f.identity = i := by
  obtain ⟨node, hn⟩ := isLive_iff_node?.mp hl
  have hi := hh.identity hn
  cases node with
  | scope s => cases hi
  | object o =>
    obtain ⟨f, hf, hidentity⟩ := Option.map_eq_some_iff.mp hi
    exact ⟨f, Option.bind_eq_some_iff.mpr ⟨o, object?_eq_some_iff.mpr hn, hf⟩, hidentity⟩

theorem of_changes {becomes : NodeId → Node → Node → Prop} (hh : HasIdentity id i h)
    (hc : Changes becomes h k)
    (hb : ∀ old node, becomes id old node → old.identity? = some i → node.identity? = some i) :
    HasIdentity id i k where
  lt_size := hh.lt_size.trans_le hc.size_le
  identity := hc.carries hh.lt_size hh.identity hb

end HasIdentity

/-- **Moves leave the identities of functions alone.** -/
theorem Move.keepsIdentity (hm : Move h k) (hh : HasIdentity id i h) : HasIdentity id i k :=
  hh.of_changes hm.changes fun _ _ hs hold => hs.identity.trans hold

theorem Define.keepsIdentity (hd : Define other name h k) (hh : HasIdentity id i h) :
    HasIdentity id i k := by
  refine hh.of_changes hd.changes fun old node hb hold => ?_
  rcases hb with rfl | ⟨-, s, c, rfl, rfl⟩ <;> exact hold

theorem Attach.keepsIdentity (ha : Attach other payload h k) (hh : HasIdentity id i h) :
    HasIdentity id i k := by
  refine hh.of_changes ha.changes fun old node hb hold => ?_
  rcases hb with rfl | ⟨-, o, rfl, rfl⟩ <;> exact hold

theorem Detach.keepsIdentity (hd : Detach other h k) (hh : HasIdentity id i h) :
    HasIdentity id i k := by
  refine hh.of_changes hd.changes fun old node hb hold => ?_
  rcases hb with rfl | ⟨-, o, rfl, rfl⟩ <;> exact hold

theorem Bind.keepsIdentity (hbind : Bind other v h k) (hh : HasIdentity id i h) :
    HasIdentity id i k := by
  refine hh.of_changes hbind.changes fun old node hb hold => ?_
  rcases hb with rfl | ⟨-, o, f, rfl, hf, -, rfl⟩
  · exact hold
  · rw [Node.identity?, Object.callable?, hf] at hold
    exact hold

theorem identity_inScope {bytecode : List UInt8} {bound : Option NodeId}
    (hbody : f.body = .compiled bytecode bound) (scope : Option NodeId) :
    (f.inScope bytecode scope).identity = f.identity := by
  rw [Callable.inScope, Callable.identity, Callable.identity, hbody]
  rfl

end Heap

abbrev History.identity (id : NodeId) (i : CallableIdentity) : History :=
  ⟨Heap.HasIdentity id i, fun hm hh => hm.keepsIdentity hh⟩

namespace Session

variable {s s₁ : Session} {id t copy x : NodeId} {i : CallableIdentity} {step : Step}
  {bytecode : List UInt8}

theorem allows_identity (s : Session) (r : Request) : @Allows (.identity id i) s r :=
  @Allows.mk (.identity id i) s r (fun _ ha => ha.keepsIdentity) (fun _ hd => hd.keepsIdentity)
    (fun _ hd => hd.keepsIdentity) fun _ hb => hb.keepsIdentity

/-- **A function keeps its identity through every run.** -/
theorem identity_run (ha : Agree [] s s) (hi : s.heap.HasIdentity id i) (more : List Step) :
    (s.run more).2.heap.HasIdentity id i := by
  let history : History := .identity id i
  exact admits_run ha hi (allowsRun_of_forall allows_identity more s)

/-! ## Families -/

/-- The function that a request copies, and the copy. -/
def copy? (s : Session) : Request → Option (NodeId × NodeId)
  | .function (.copyCompiled on scope) =>
    match (FunctionRequest.makeCopy on scope).run.run s with
    | (.ok (id, x), s₁) =>
      ((HeapM.copyCompiled id x).run s₁.heap).1.toOption.map fun copy => (id, copy)
    | (.error _, _) => none
  | _ => none

/-- The functions of a list, the copies that a run makes of them, and the copies of those. -/
def family (s : Session) (ids : List NodeId) : List Step → List NodeId
  | [] => ids
  | step :: rest =>
    let copies := (s.copy? step.request).filter fun made => made.1 ∈ ids
    (s.step step).2.family (ids ++ copies.toList.map Prod.snd) rest

theorem exists_make_of_copy? {r : Request} (hcopy : s.copy? r = some (t, copy)) :
    ∃ on scope x s₁, r = .function (.copyCompiled on scope) ∧
      (FunctionRequest.makeCopy on scope).run.run s = (.ok (t, x), s₁) ∧
      ((HeapM.copyCompiled t x).run s₁.heap).1 = .ok copy := by
  unfold copy? at hcopy
  split at hcopy
  · next on scope =>
    split at hcopy
    · next id x s₁ hmake =>
      obtain ⟨made, hmade, he⟩ := Option.map_eq_some_iff.mp hcopy
      obtain ⟨rfl, rfl⟩ := Prod.mk.inj he
      refine ⟨on, scope, x, s₁, rfl, hmake, ?_⟩
      cases hrun : ((HeapM.copyCompiled id x).run s₁.heap).1 with
      | error e =>
        rw [hrun] at hmade
        cases hmade
      | ok a =>
        rw [hrun] at hmade
        exact congrArg Except.ok (Option.some.inj hmade)
    · cases hcopy
  · cases hcopy

/-- **A copy that a step makes has the identity of the function.** -/
theorem identity_of_copy? (ha : @Agree .nesting [] s s) (hi : s.heap.HasIdentity t i)
    (hbody : i.body = .compiled bytecode) (hcopy : s.copy? step.request = some (t, copy)) :
    (s.step step).2.heap.HasIdentity copy i := by
  obtain ⟨on, scope, x, s₁, hrequest, hmake, hmade⟩ := exists_make_of_copy? hcopy
  -- The function is what it was when the literals of the step are made.
  obtain ⟨hheld, hi₁⟩ : s₁.heap.isLive t = true ∧ s₁.heap.HasIdentity t i := by
    let history : History := .identity t i
    have hstart : Agree [] s s := ha.knowing hi hi
    obtain ⟨ha₁, ht, -⟩ := (FunctionRequest.runMakeCopy on scope hstart).of_ok hmake
    exact ⟨(ha₁.heap.has _ ht).isLive, ha₁.heap.leftAdmits⟩
  obtain ⟨f, hf, rfl⟩ := hi₁.exists_callable hheld
  obtain ⟨bound, hcompiled⟩ : ∃ bound, f.body = .compiled bytecode bound := by
    rw [Callable.identity] at hbody
    cases hfbody : f.body with
    | compiled other bound =>
      rw [hfbody] at hbody
      exact ⟨bound, by rw [BodyIdentity.compiled.inj hbody]⟩
    | _ =>
      rw [hfbody] at hbody
      cases hbody
  obtain ⟨a, k, hrun, hmadeFunction, hadmits⟩ := exists_copy ha hrequest hmake hf hcompiled
  rw [hrun] at hmade
  obtain rfl : a = copy := Except.ok.inj hmade
  refine hadmits (.identity a f.identity) ?_
  rw [← Heap.identity_inScope hcompiled (some x)]
  exact .of_callableOf? hmadeFunction.callable

/-- **All of a family have one identity.** -/
theorem identity_family (hbody : i.body = .compiled bytecode) (steps : List Step) :
    ∀ {s : Session} {ids : List NodeId}, @Agree .nesting [] s s →
      (∀ a ∈ ids, s.heap.HasIdentity a i) →
        ∀ a ∈ s.family ids steps, (s.run steps).2.heap.HasIdentity a i := by
  induction steps with
  | nil => exact fun _ hi => hi
  | cons step rest ih =>
    intro s ids ha hi
    have hnext := @Agree.step .nesting _ _ ha step (s.allows_nesting step.request)
    refine ih hnext fun a hm => ?_
    rcases List.mem_append.mp hm with hm | hm
    · exact identity_run (ha.weaken fun _ _ => trivial) (hi a hm) [step]
    · obtain ⟨made, hmade, rfl⟩ := List.mem_map.mp hm
      obtain ⟨hcopy, ht⟩ := Option.filter_eq_some_iff.mp (Option.mem_toList.mp hmade)
      exact identity_of_copy? ha (hi _ (of_decide_eq_true ht)) hbody hcopy

/-! ## Functions in order -/

/-- **Functions are in order, and copies are level.** Wherever the things stand that are told apart by
identity, the order of callables is a total preorder, and level are those of one identity.
On every heap that a program can come to a compiled function can be copied into every scope, and the
copy is level with it. After the session has run on, all of the family of a compiled function that are
there are level with one another. -/
structure FunctionsInOrder (s : Session) : Prop where
  order : ∀ (κ : Type) [LinearOrder κ] (p : Places κ), Callable.InOrder (Callable.compare p)
  copied : ∀ (links : List Link) (h : Heap) (t x : NodeId) (f : Callable) (bytecode : List UInt8)
    (bound : Option NodeId), Heap.Hosted links h → .object t ∈ links → .scope x ∈ links →
    h.callableOf? t = some f → f.body = .compiled bytecode bound →
    ∃ a k, (HeapM.copyCompiled t x).run h = (.ok a, k) ∧ h.cells.size ≤ a ∧
      k.callableOf? a = some (f.inScope bytecode (some x)) ∧
      (f.inScope bytecode (some x)).Level f
  family : ∀ (t : NodeId) (f : Callable) (bytecode : List UInt8) (bound : Option NodeId)
    (more : List Step), s.heap.callableOf? t = some f → f.body = .compiled bytecode bound →
    ∀ a ∈ s.family [t] more, ∀ b ∈ s.family [t] more, ∀ g e,
      (s.run more).2.heap.callableOf? a = some g → (s.run more).2.heap.callableOf? b = some e →
      g.Level e

/-- **The order of functions is a total preorder that identifies copies**, in every session. -/
theorem functions_in_order (steps : List Step) : (initial.run steps).2.FunctionsInOrder where
  order _ _ p := Callable.inOrder_compare p
  copied links h t x f bytecode bound hh ht hx hf hbody := by
    obtain ⟨a, k, hrun, -, hmade⟩ := hh.copyCompiled ht hx hf hbody
    exact ⟨a, k, hrun, hmade.fresh, hmade.callable,
      Callable.level_iff.mpr (Heap.identity_inScope hbody _)⟩
  family t f bytecode bound more hf hbody a ha b hb g e hg he := by
    have hidentity : f.identity.body = .compiled bytecode := by
      rw [Callable.identity, hbody]
      rfl
    have hfirst (c : NodeId) (hc : c ∈ [t]) :
        (initial.run steps).2.heap.HasIdentity c f.identity := by
      obtain rfl := List.mem_singleton.mp hc
      exact .of_callableOf? hf
    have hfamily := identity_family hidentity more (nested_agree steps) hfirst
    exact Callable.level_iff.mpr
      (((hfamily a ha).identity_eq hg).trans ((hfamily b hb).identity_eq he).symm)

def templateMade : List Step :=
  [⟨.scope (.create "scope" none), none, none⟩,
    ⟨.function (.create "next" ["step"] false (.compiled "count")), some "next", none⟩]

def copiesMade : List Step :=
  [⟨.function (.copyCompiled (.register "next") "scope"), some "early", none⟩,
    ⟨.function (.bindThis (.register "early") (.integer 1)), none, none⟩,
    ⟨.function (.copyCompiled (.register "early") "scope"), some "late", none⟩]

/-- The function in that run, in different scopes and with what it is bound to. -/
def nextFunction (bound : Option Value) (scope : Option NodeId) : Callable :=
  ⟨"next", ["step"], false, bound, .compiled [99, 111, 117, 110, 116] scope⟩

/-- The function is level with a copy of a bound copy, which is bound and has a scope. -/
theorem functions_in_order_family :
    let s := (initial.run templateMade).2
    (∃ a k, (HeapM.copyCompiled 5 0).run s.heap = (.ok a, k) ∧
        k.callableOf? a = some (nextFunction none (some 0))) ∧
      (s.run copiesMade).2.heap.callableOf? 5 = some (nextFunction none none) ∧
      (s.run copiesMade).2.heap.callableOf? 9 = some (nextFunction (some (.integer 1)) (some 0)) ∧
      (nextFunction none none).Level (nextFunction (some (.integer 1)) (some 0)) := by
  intro s
  have horder : s.FunctionsInOrder := functions_in_order templateMade
  have hfunction : s.heap.callableOf? 5 = some (nextFunction none none) := by decide +kernel
  obtain ⟨a, k, hrun, -, hcopy, -⟩ := horder.copied s.links s.heap 5 0 _ _ _ (hosted templateMade)
    (by decide +kernel) (by decide +kernel) hfunction rfl
  have hfirst : (s.run copiesMade).2.heap.callableOf? 5 = some (nextFunction none none) := by
    decide +kernel
  have hlast : (s.run copiesMade).2.heap.callableOf? 9 =
      some (nextFunction (some (.integer 1)) (some 0)) := by decide +kernel
  exact ⟨⟨a, k, hrun, hcopy⟩, hfirst, hlast, horder.family 5 _ _ _ copiesMade hfunction rfl
    5 (by decide +kernel) 9 (by decide +kernel) _ _ hfirst hlast⟩

end Session

end ScriptCore
