import ScriptCore.Proofs.Agreement.Calls
import ScriptCore.Session.State

/-!
# Steps on sessions that agree

A session holds what is in its registers, scopes and table, and what the present step has made. Two
sessions agree if they are the same but for their runtimes, which agree on all that is held. Besides
that, an action may hold more on its own account, `extra`.

`Alike m n s t more Q`: two actions answer the same, `Q` holds of the answer and the sessions
afterwards, and if they fail, nothing but the value of the failure and `more` is held on their
account.
-/

namespace ScriptCore

def Failure.links : Failure → List Link
  | .error e => e.links
  | _ => []

def Outcome.links : Outcome → List Link
  | .facts _ => []
  | .value v => v.links

def tableLinks (table : List (Value × Value)) : List Link :=
  table.flatMap fun entry => entry.1.links ++ entry.2.links

namespace Session

def links (s : Session) : List Link :=
  valueLinks s.registers.values ++ s.scopes.values.map .scope ++ tableLinks s.table ++
    valueLinks s.temporaries

def holding (s : Session) (v : Value) : Session :=
  { s with runtime := { s.runtime with heap := s.heap.addHandles v.references } }

/-- Sessions that cannot be told apart, with `extra` held by an action under way. -/
structure Agree [History] (extra : List Link) (s t : Session) : Prop where
  runtime : Runtime.Agree (extra ++ s.links) s.runtime t.runtime
  same : { t with runtime := s.runtime } = s
  /-- no two keys of the table are equal -/
  distinct : s.table.Pairwise fun a b => a.1.sameKey b.1 = false

namespace Agree

variable [History] {s t : Session} {extra more : List Link}

theorem exists_runtime (ha : Agree extra s t) : ∃ r, t = { s with runtime := r } :=
  ⟨t.runtime, by rw [← ha.same]⟩

theorem heap (ha : Agree extra s t) : Heap.Agree (extra ++ s.links) s.heap t.heap := ha.runtime.heap

theorem symm (ha : Agree extra s t) : Agree extra t s := by
  obtain ⟨r, rfl⟩ := ha.exists_runtime
  exact ⟨⟨ha.heap.symm, ha.runtime.engineCalls.symm⟩, rfl, ha.distinct⟩

theorem perm (ha : Agree extra s t) (hp : extra.Perm more) : Agree more s t :=
  ⟨ha.runtime.perm (hp.append_right _), ha.same, ha.distinct⟩

omit [History] in
theorem knowing {before after : History} (ha : @Agree before extra s t)
    (hs : after.Admits s.heap) (ht : after.Admits t.heap) : Agree extra s t := by
  obtain ⟨⟨⟨hmatch, _, _⟩, hcalls⟩, hsame, hdistinct⟩ := ha
  exact ⟨⟨⟨hmatch, hs, ht⟩, hcalls⟩, hsame, hdistinct⟩

omit [History] in
theorem weaken {before after : History} (ha : @Agree before extra s t)
    (hp : ∀ h, before.Admits h → after.Admits h) : Agree extra s t := by
  have hadmits : before.Admits s.heap ∧ before.Admits t.heap := by
    obtain ⟨⟨⟨_, hleft, hright⟩, _⟩, _⟩ := ha
    exact ⟨hleft, hright⟩
  exact ha.knowing (hp _ hadmits.1) (hp _ hadmits.2)

omit [History] in
theorem withRuntime {before after : History} {r r' : Runtime} (ha : @Agree before extra s t)
    (hr : Runtime.Agree (more ++ s.links) r r') :
    Agree more { s with runtime := r } { t with runtime := r' } := by
  obtain ⟨_, hsame, hdistinct⟩ := ha
  refine ⟨hr, ?_, hdistinct⟩
  show { t with runtime := r } = { s with runtime := r }
  rw [← hsame]

theorem holding {v : Value} (ha : Agree extra s t) (hv : s.heap.SeesValue (extra ++ s.links) v) :
    Agree (v.links ++ extra) (s.holding v) (t.holding v) := by
  refine ha.withRuntime ⟨?_, ha.runtime.engineCalls⟩
  rw [List.append_assoc]
  exact (ha.heap.runHold hv).2

theorem registers_eq (ha : Agree extra s t) : t.registers = s.registers := by rw [← ha.same]

theorem scopes_eq (ha : Agree extra s t) : t.scopes = s.scopes := by rw [← ha.same]

omit [History] in
theorem held_register {name : String} {v : Value} (hv : s.registers.get? name = some v) :
    v.links ⊆ s.links := by
  intro l hl
  have hregisters : l ∈ valueLinks s.registers.values :=
    mem_valueLinks.mpr ⟨v, Fields.mem_values_of_get? hv, hl⟩
  simp [links, hregisters]

omit [History] in
theorem held_scope {name : String} {id : NodeId} (hid : s.scopes.get? name = some id) :
    .scope id ∈ s.links := by
  have hscopes : Link.scope id ∈ s.scopes.values.map .scope :=
    List.mem_map_of_mem (Fields.mem_values_of_get? hid)
  simp [links, hscopes]

end Agree

end Session

namespace StepM

theorem run_bind_of_ok {α β : Type} {m : StepM α} {f : α → StepM β} {s s' : Session} {a : α}
    (hm : m.run.run s = (.ok a, s')) : (m >>= f).run.run s = (f a).run.run s' := by
  rw [ExceptT.run_bind, run_bind_of_run hm]

theorem run_onHeap_of_run {α : Type} {action : HeapM α} {s : Session} {k : Heap} {a : α}
    (hrun : action.run s.heap = (a, k)) :
    (StepM.onHeap action).run.run s =
      (.ok a, { s with runtime := { s.runtime with heap := k } }) := by
  have honly : (StepM.onHeap action).run.run s = (.ok (action.run s.heap).1,
      { s with runtime := { s.runtime with heap := (action.run s.heap).2 } }) := rfl
  rw [honly, hrun]

variable [History]

def Ends {α : Type} (more : List Link) (Q : α → Session → Session → Prop) :
    Except Failure α → Session → Session → Prop
  | .ok a => Q a
  | .error cause => Session.Agree (cause.links ++ more)

/-- Two actions answer the same or fail alike. -/
def Alike {α : Type} (m n : StepM α) (s t : Session) (more : List Link)
    (Q : α → Session → Session → Prop) : Prop :=
  Together m.run n.run s t (Ends more Q)

namespace Alike

variable {α β : Type} {m n : StepM α} {f g : α → StepM β} {s t s' t' : Session}
  {more extra : List Link} {Q R : α → Session → Session → Prop}
  {P : β → Session → Session → Prop} {v : Value}

theorem mono (hm : Alike m n s t more R) (hq : ∀ a s' t', R a s' t' → Q a s' t') :
    Alike m n s t more Q := by
  refine Together.mono hm fun r s' t' hr => ?_
  cases r with
  | ok a => exact hq a s' t' hr
  | error cause => exact hr

theorem pure {a : α} (hq : Q a s t) : Alike (Pure.pure a) (Pure.pure a) s t more Q := ⟨rfl, hq⟩

theorem fail {cause : Failure} (ha : Session.Agree (cause.links ++ more) s t) :
    Alike (StepM.fail cause) (StepM.fail cause) s t more Q := ⟨rfl, ha⟩

theorem bind (hm : Alike m n s t more R)
    (hf : ∀ a s' t', R a s' t' → Alike (f a) (g a) s' t' more P) :
    Alike (m >>= f) (n >>= g) s t more P := by
  rw [Alike, ExceptT.run_bind, ExceptT.run_bind]
  refine Together.bind hm fun r s' t' hr => ?_
  cases r with
  | ok a => exact hf a s' t' hr
  | error cause => exact Together.pure hr

theorem map {u : α → β} (hm : Alike m n s t more R)
    (hp : ∀ a s' t', R a s' t' → P (u a) s' t') : Alike (u <$> m) (u <$> n) s t more P := by
  rw [map_eq_pure_bind, map_eq_pure_bind]
  exact hm.bind fun a s' t' hr => pure (hp a s' t' hr)

omit [History] in
theorem bind_across {before after : History} (hm : @Alike before α m n s t more R)
    (hf : ∀ a s' t', m.run.run s = (.ok a, s') → R a s' t' → Alike (f a) (g a) s' t' more P)
    (herror : ∀ cause s', m.run.run s = (.error cause, s') → ∀ h, before.Admits h → after.Admits h) :
    Alike (m >>= f) (n >>= g) s t more P := by
  rw [Alike, ExceptT.run_bind, ExceptT.run_bind]
  refine Together.bind (Together.known hm) fun r s' t' hq => ?_
  cases r with
  | ok a => exact hf a s' t' hq.1 hq.2
  | error cause =>
    have ha : @Session.Agree before (cause.links ++ more) s' t' := hq.2
    exact Together.pure (ha.weaken (herror cause s' hq.1))

theorem of_ok {a : α} (hm : Alike m m s s more Q) (hrun : m.run.run s = (.ok a, s')) : Q a s' s' := by
  obtain ⟨-, hq⟩ := hm
  rw [hrun] at hq
  exact hq

theorem skip_bind {f g : PUnit → StepM β} (hf : Alike (f ⟨⟩) (g ⟨⟩) s t more P) :
    Alike (Pure.pure ⟨⟩ >>= f) (Pure.pure ⟨⟩ >>= g) s t more P := hf

theorem tryCatch {before : List Link} {handle : Failure → StepM α}
    (hm : Alike m n s t before R) (hok : ∀ a s' t', R a s' t' → Q a s' t')
    (hh : ∀ cause s' t', Session.Agree (cause.links ++ before) s' t' →
      Alike (handle cause) (handle cause) s' t' more Q) :
    Alike (MonadExcept.tryCatch m handle) (MonadExcept.tryCatch n handle) s t more Q := by
  rw [Alike, ExceptT.run_tryCatch, ExceptT.run_tryCatch]
  refine Together.bind hm fun r s' t' hr => ?_
  cases r with
  | ok a => exact Together.pure (hok a s' t' hr)
  | error cause => exact hh cause s' t' hr

/-! ## The session -/

theorem get_bind {f g : Session → StepM β} (hf : Alike (f s) (g t) s t more P) :
    Alike (getThe Session >>= f) (getThe Session >>= g) s t more P := hf

theorem set_bind {f g : PUnit → StepM β} (hf : Alike (f ⟨⟩) (g ⟨⟩) s' t' more P) :
    Alike (set s' >>= f) (set t' >>= g) s t more P := hf

theorem heap_bind {f g : Heap → StepM β} (hf : Alike (f s.heap) (g t.heap) s t more P) :
    Alike (StepM.heap >>= f) (StepM.heap >>= g) s t more P := hf

theorem orFail {links : α → List Link} {result : Except Error α}
    (ha : Session.Agree (resultLinks links result ++ more) s t) :
    Alike (StepM.orFail result) (StepM.orFail result) s t more fun a s' t' =>
      Session.Agree (links a ++ more) s' t' ∧ s' = s := by
  cases result with
  | ok a => exact pure ⟨ha, rfl⟩
  | error e => exact fail ha

theorem required {x : Option α} (ha : Session.Agree more s t) :
    Alike (StepM.required x) (StepM.required x) s t more fun a s' t' =>
      Session.Agree more s' t' ∧ s' = s ∧ x = some a := by
  cases x with
  | some a => exact pure ⟨ha, rfl, rfl⟩
  | none => exact fail ha

/-! ## Operations on the heap -/

/-- **An operation of the runtime** changes nothing else in the session. -/
theorem onRuntime {m : RunM α} (held : α → List Link) (P : α → Runtime → Prop)
    (ha : Session.Agree extra s t)
    (hm : Together m m s.runtime t.runtime fun a r r' =>
      Runtime.Agree (held a ++ s.links) r r' ∧ P a r) :
    Alike (StepM.onRuntime m) (StepM.onRuntime m) s t more fun a s' t' =>
      Session.Agree (held a) s' t' ∧ s'.links = s.links ∧ P a s'.runtime :=
  ⟨congrArg Except.ok hm.1, ha.withRuntime hm.2.1, rfl, hm.2.2⟩

theorem onRuntime_add {m : RunM α} (held : α → List Link) (ha : Session.Agree extra s t)
    (hm : Together m m s.runtime t.runtime fun a r r' =>
      Runtime.Agree (held a ++ (extra ++ s.links)) r r') :
    Alike (StepM.onRuntime m) (StepM.onRuntime m) s t more fun a s' t' =>
      Session.Agree (held a ++ extra) s' t' ∧ s'.links = s.links := by
  refine (onRuntime (fun a => held a ++ extra) (fun _ _ => True) ha ?_).mono ?_
  · refine hm.mono fun a r r' hr => ⟨?_, trivial⟩
    rwa [List.append_assoc]
  · exact fun a s' t' ⟨ha, hl, _⟩ => ⟨ha, hl⟩

theorem onHeap {m : HeapM α} (held : α → List Link) (P : α → Heap → Prop)
    (ha : Session.Agree extra s t)
    (hm : Together m m s.heap t.heap fun a h k => Heap.Agree (held a ++ s.links) h k ∧ P a h) :
    Alike (StepM.onHeap m) (StepM.onHeap m) s t more fun a s' t' =>
      Session.Agree (held a) s' t' ∧ s'.links = s.links ∧ P a s'.heap := by
  refine onRuntime held (fun a r => P a r.heap) ha ?_
  exact (hm.onHeap ha.runtime.engineCalls).mono fun a r r' ⟨⟨hh, hp⟩, he⟩ => ⟨⟨hh, he⟩, hp⟩

theorem onHeap_from {m : HeapM α} (held : α → List Link) {before : List Link}
    (ha : Session.Agree (before ++ extra) s t)
    (hm : Together m m s.heap t.heap fun a h k =>
      Heap.Agree (held a ++ (extra ++ s.links)) h k) :
    Alike (StepM.onHeap m) (StepM.onHeap m) s t more fun a s' t' =>
      Session.Agree (held a ++ extra) s' t' ∧ s'.links = s.links := by
  refine (onHeap (fun a => held a ++ extra) (fun _ _ => True) ha (hm.mono fun a h k ha => ?_)).mono
    fun _ s' t' ⟨ha, hl, _⟩ => ⟨ha, hl⟩
  rw [List.append_assoc]
  exact ⟨ha, trivial⟩

theorem onHeap_add {m : HeapM α} (held : α → List Link) (ha : Session.Agree extra s t)
    (hm : Together m m s.heap t.heap fun a h k =>
      Heap.Agree (held a ++ (extra ++ s.links)) h k) :
    Alike (StepM.onHeap m) (StepM.onHeap m) s t more fun a s' t' =>
      Session.Agree (held a ++ extra) s' t' ∧ s'.links = s.links :=
  onRuntime_add held ha (ha.runtime.onHeap hm)

theorem hold_bind {f g : PUnit → StepM β}
    (hf : Alike (f ⟨⟩) (g ⟨⟩) (s.holding v) (t.holding v) more P) :
    Alike (StepM.onHeap (HeapM.hold v) >>= f) (StepM.onHeap (HeapM.hold v) >>= g) s t more P := hf

theorem hold (ha : Session.Agree extra s t) (hv : s.heap.SeesValue (extra ++ s.links) v) :
    Alike (StepM.onHeap (HeapM.hold v)) (StepM.onHeap (HeapM.hold v)) s t more fun _ s' t' =>
      Session.Agree (v.links ++ extra) s' t' ∧ s'.links = s.links :=
  onHeap_add (fun _ => v.links) ha (ha.heap.runHold hv)

theorem letGo (ha : Session.Agree (v.links ++ extra) s t) :
    Alike (StepM.onHeap (HeapM.letGo v)) (StepM.onHeap (HeapM.letGo v)) s t more fun _ s' t' =>
      Session.Agree extra s' t' ∧ s'.links = s.links := by
  have hheap := ha.heap
  rw [List.append_assoc] at hheap
  exact onHeap_from (fun _ => []) ha hheap.runLetGo

theorem letGoAll (vs : List Value) : ∀ {s t : Session},
    Session.Agree (valueLinks vs ++ extra) s t →
      Alike (vs.forM fun v => StepM.onHeap (HeapM.letGo v))
        (vs.forM fun v => StepM.onHeap (HeapM.letGo v)) s t more fun _ s' t' =>
          Session.Agree extra s' t' ∧ s'.links = s.links := by
  induction vs with
  | nil => exact fun ha => pure ⟨ha, rfl⟩
  | cons v vs ih =>
    intro s t ha
    rw [valueLinks_cons, List.append_assoc] at ha
    refine (letGo ha).bind fun _ s₁ t₁ ⟨ha, hl⟩ => ?_
    exact (ih ha).mono fun _ s₂ t₂ ⟨ha, hl'⟩ => ⟨ha, hl'.trans hl⟩

theorem orLetGo {vs : List Value} (hm : Alike m n s t (valueLinks vs ++ more) Q) :
    Alike (StepM.orLetGo vs m) (StepM.orLetGo vs n) s t more Q := by
  refine hm.tryCatch (fun _ _ _ hq => hq) fun cause s' t' ha => ?_
  have hswap : Session.Agree (valueLinks vs ++ (cause.links ++ more)) s' t' :=
    ha.perm (List.perm_append_comm_assoc ..)
  exact (letGoAll vs hswap).bind fun _ s₁ t₁ ⟨ha, _⟩ => fail ha

theorem keep (ha : Session.Agree (v.links ++ extra) s t) :
    Alike (StepM.keep v) (StepM.keep v) s t more fun _ s' t' =>
      Session.Agree extra s' t' ∧ s'.links = s.links ++ v.links := by
  have hlinks : { s with temporaries := s.temporaries ++ [v] }.links = s.links ++ v.links := by
    simp [Session.links, valueLinks]
  refine ⟨rfl, ⟨?_, ?_, ha.distinct⟩, hlinks⟩
  · show Runtime.Agree (extra ++ { s with temporaries := s.temporaries ++ [v] }.links) _ _
    rw [hlinks]
    refine ha.runtime.perm ?_
    rw [List.append_assoc, ← List.append_assoc extra]
    exact List.perm_append_comm
  · obtain ⟨r, rfl⟩ := ha.exists_runtime
    rfl

end Alike

end StepM

end ScriptCore
