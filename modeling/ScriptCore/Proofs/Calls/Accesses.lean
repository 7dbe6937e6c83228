import ScriptCore.Proofs.Calls.Failures

/-!
# Accesses

A host gets functions called by calling a value, and by reading and writing properties. Each access makes
one call at most, which is told by the heap (`Access.call?`): it is that of a value, or of the nearest
accessor with the object as `this`.

What an access comes to is the same for all of them (`ComesTo`). It runs what its call runs, and enters
the engine for what its call hands to it; what cannot be run is refused, and a failure without the
engine leaves everything as it was.
-/

namespace ScriptCore

/-- A call that may be made. -/
structure Calling where
  engine : Engine
  callee : Value
  this : Value
  args : List Value
deriving DecidableEq

/-- What a host does that may get a function called. -/
inductive Access where
  | call (c : Calling)
  | getProperty (engine : Engine) (id : NodeId) (key : String)
  | callGetter (engine : Engine) (id : NodeId) (key : String)
  | setProperty (engine : Engine) (id : NodeId) (key : String) (v : Value)
  | callSetter (engine : Engine) (id : NodeId) (key : String) (v : Value)

namespace Access

def call? (h : Heap) : Access → Option Calling
  | .call c => some c
  | .getProperty engine id key | .callGetter engine id key =>
    (h.findGetter? id key).map fun getter => ⟨engine, .object getter, .object id, []⟩
  | .setProperty engine id key v | .callSetter engine id key v =>
    (h.findSetter? id key).map fun setter => ⟨engine, .object setter, .object id, [v]⟩

def links : Access → List Link
  | .call c => c.callee.links ++ c.this.links ++ valueLinks c.args
  | .getProperty _ id _ | .callGetter _ id _ => [.object id]
  | .setProperty _ id _ v | .callSetter _ id _ v => .object id :: v.links

/-- An access. Reads and calls answer a value, and writes the object that was written to. -/
def run : Access → RunM (Except Error Value)
  | .call c => RunM.call c.engine c.callee c.this c.args
  | .getProperty engine id key => RunM.getProperty engine id key
  | .callGetter engine id key => RunM.callGetter engine id key
  | .setProperty engine id key v => Except.map (fun _ => .object id) <$> RunM.setProperty engine id key v
  | .callSetter engine id key v => Except.map (fun _ => .object id) <$> RunM.callSetter engine id key v

open RunM in
def noted (moment : Moment) : Access → RecordM (Except Error Value)
  | .call c => callBy (RunM.noted moment c.engine) c.callee c.this c.args
  | .getProperty engine id key => getPropertyBy (RunM.noted moment engine) id key
  | .callGetter engine id key => callGetterBy (RunM.noted moment engine) id key
  | .setProperty engine id key v =>
    Except.map (fun _ => .object id) <$> setPropertyBy (RunM.noted moment engine) id key v
  | .callSetter engine id key v =>
    Except.map (fun _ => .object id) <$> callSetterBy (RunM.noted moment engine) id key v

def record (access : Access) (moment : Moment) (r : Runtime) : List Invocation :=
  (((access.noted moment).run []).run r).1.2

end Access

namespace RunM

theorem Runs.map {α β : Type} {plain : RunM α} {recording : RecordM α} {r r' : Runtime} {a : α}
    {record : List Invocation} (g : α → β) (h : Runs plain recording r a record r') :
    Runs (g <$> plain) (g <$> recording) r (g a) record r' := by
  refine ⟨?_, fun before => ?_⟩
  · rw [StateT.run_map, h.run_eq]
    rfl
  · rw [StateT.run_map, StateT.run_map, h.recording_eq]
    rfl

theorem Runs.record_eq {access : Access} {moment : Moment} {r r' : Runtime}
    {a : Except Error Value} {record : List Invocation}
    (h : Runs access.run (access.noted moment) r a record r') :
    access.record moment r = record := by
  rw [Access.record, h.recording_eq]
  rfl

/-! ## What calls come to -/

/-- **What an action comes to that makes a call.** -/
structure ComesTo {α : Type} (plain : RunM (Except Error α))
    (recording : Moment → RecordM (Except Error α)) (engine : Engine) (r : Runtime)
    (callee this : Value) (args : List Value) (runs entries : List Invocation) (a : Except Error α)
    (r' : Runtime) : Prop
    extends Dispatches plain recording engine r callee this args runs entries a r' where
  notCallable : r.heap.callable? callee = none → a = .error (.notCallable callee)
  template : ∀ f bytecode, r.heap.callable? callee = some f → f.body = .compiled bytecode none →
    a = .error (.unboundTemplate f.name)
  /-- Where the engine is not entered, a failure leaves everything as it was: the runtime is the same,
  but for what the error holds. -/
  unchanged : ∀ e, a = .error e →
    (∀ f, r.heap.callable? callee = some f →
      f.body.isForEngine = false ∧ f.body ≠ .native .apply) → r' = r.holding e.references
  /-- Where it is another call that fails, which `apply` has made, only a text may be new. -/
  quiet : ∀ e, a = .error e → entries = [] → r.heap.Grows r'.heap

variable {α β : Type} {plain : RunM (Except Error α)} {recording : Moment → RecordM (Except Error α)}
  {plain' : RunM (Except Error β)} {recording' : Moment → RecordM (Except Error β)}
  {engine : Engine} {r r' r'' : Runtime} {accessor : NodeId} {callee this : Value} {args : List Value}
  {runs entries : List Invocation} {a : Except Error α} {b : Except Error β} {links : List Link}

theorem ComesTo.of_runs (h : ComesTo plain recording engine r callee this args runs entries a r')
    (hruns : ∀ moment, Runs plain' (recording' moment) r b (moment.pick runs entries) r'')
    (hcalls : r''.engineCalls = r'.engineCalls) (herror : ∀ e, a = .error e → b = .error e)
    (hback : ∀ e, b = .error e → a = .error e ∧ r'' = r') :
    ComesTo plain' recording' engine r callee this args runs entries b r'' where
  calls := h.calls
  noted := hruns
  counted := hcalls.trans h.counted
  notCallable hf := herror _ (h.notCallable hf)
  template f bytecode hf hbody := herror _ (h.template f bytecode hf hbody)
  unchanged e he hf := by
    obtain ⟨ha, rfl⟩ := hback e he
    exact h.unchanged e ha hf
  quiet e he hentries := by
    obtain ⟨ha, rfl⟩ := hback e he
    exact h.quiet e ha hentries

/-- **What a call comes to.** -/
theorem exists_comesTo_call (engine : Engine) (ha : Runtime.Agree links r r)
    (hcallee : callee.links ⊆ links) (hthis : this.links ⊆ links) (hargs : valueLinks args ⊆ links) :
    ∃ runs entries outcome r',
      ComesTo (call engine callee this args)
        (fun moment => callBy (noted moment engine) callee this args) engine r callee this args runs
        entries outcome r' ∧
      Runtime.Agree (outcomeLinks outcome ++ links) r' r' := by
  obtain ⟨runs, entries, outcome, r', hcall⟩ := dispatched engine args callee this r
  have hrun := (hcall.noted .run).run_eq
  have hr := ha.heap.left
  have hagree := (Runtime.Agree.runCall engine args ha hcallee hthis hargs).2
  rw [hrun] at hagree
  refine ⟨runs, entries, outcome, r', { hcall with
    notCallable := fun hf => ?_
    template := fun f bytecode hf hbody => ?_
    unchanged := fun e he hf => ?_
    quiet := fun e he hentries => ?_ }, hagree⟩
  · rw [call_of_not_callable hf] at hrun
    exact (Prod.mk.inj hrun).1.symm
  · obtain ⟨id, rfl, hf⟩ := Heap.exists_callableOf? hf
    rw [call_of_template hr hf hbody] at hrun
    exact (Prod.mk.inj hrun).1.symm
  · subst he
    exact call_error hr hf hrun
  · subst he hentries
    exact failsQuietly engine args ha hcallee hthis hargs hcall.calls hrun

/-- **What a call of an accessor comes to**, which is held meanwhile. -/
theorem exists_comesTo_accessor (engine : Engine) (ha : Runtime.Agree links r r)
    (hs : r.heap.Sees links (.object accessor)) (hthis : this.links ⊆ links)
    (hargs : valueLinks args ⊆ links) : ∃ runs entries outcome r',
      ComesTo (callAccessorBy (runFunction engine) accessor this args)
        (fun moment => callAccessorBy (noted moment engine) accessor this args) engine r
        (.object accessor) this args runs entries outcome r' ∧
      Runtime.Agree (outcomeLinks outcome ++ links) r' r' := by
  have hheld {ls : List Link} (hl : ls ⊆ links) : ls ⊆ .object accessor :: links := fun l hm =>
    List.mem_cons_of_mem _ (hl hm)
  have hself : (Value.object accessor).links ⊆ .object accessor :: links := fun l hm =>
    List.mem_singleton.mp hm ▸ List.mem_cons_self
  obtain ⟨runs, entries, outcome, after, hcall, hagree⟩ :=
    exists_comesTo_call engine (ha.holdingOne hs) hself (hheld hthis) (hheld hargs)
  obtain ⟨hagree', hshrinks⟩ := (hagree.perm List.perm_middle).letGoOne
  have hsame (id : NodeId) : (r.holding [accessor]).heap.callableOf? id = r.heap.callableOf? id :=
    Runtime.callableOf?_holding
  have hcallable : (r.holding [accessor]).heap.callable? (.object accessor) =
      r.heap.callable? (.object accessor) := hsame accessor
  have hreferenced : ∀ id ∈ [accessor], r.heap.isReferenced id = true := fun id hm =>
    List.mem_singleton.mp hm ▸ ha.heap.left.isReferenced (ha.heap.has_of_sees hs).isLive
  refine ⟨runs, entries, outcome, after.letGo [.reference accessor], ?_, hagree'⟩
  exact {
    calls := hcall.calls.congr fun id => (hsame id).symm
    noted := fun moment => .accessor (call_eq engine _ _ _ ▸ hcall.noted moment)
    counted := hcall.counted
    notCallable := fun hf => hcall.notCallable (hcallable.trans hf)
    template := fun f bytecode hf => hcall.template f bytecode (hcallable.trans hf)
    unchanged := fun e he hf => by
      rw [hcall.unchanged e he fun f hf' => hf f (hcallable.symm.trans hf')]
      exact congrArg (fun heap => { r with heap := heap })
        (Heap.letGo_addHandles_addHandles e.references hreferenced)
    quiet := fun e he hentries =>
      ((Heap.Grows.of_shrinks (Heap.shrinks_addHandles r.heap [accessor])).trans
        (hcall.quiet e he hentries)).trans (.of_shrinks hshrinks) }

theorem ComesTo.map (g : α → β)
    (h : ComesTo plain recording engine r callee this args runs entries a r') :
    ComesTo (Except.map g <$> plain) (fun moment => Except.map g <$> recording moment) engine r callee
      this args runs entries (a.map g) r' := by
  refine h.of_runs (fun moment => (h.noted moment).map _) rfl (fun e he => ?_) fun e he => ⟨?_, rfl⟩
  · rw [he]
    rfl
  · cases a with
    | ok v => cases he
    | error cause => exact congrArg Except.error (Except.error.inj he)

variable {id : NodeId} {key : String} {v : Value}

/-- **Reads make the call of the nearest getter.** -/
theorem exists_comesTo_getter (engine : Engine) {getter : NodeId} (ha : Runtime.Agree links r r)
    (hid : .object id ∈ links) (hg : r.heap.findGetter? id key = some getter) : ∃ runs entries a r',
      ComesTo (callGetter engine id key) (fun moment => callGetterBy (noted moment engine) id key)
        engine r (.object getter) (.object id) [] runs entries a r' ∧
      ComesTo (getProperty engine id key) (fun moment => getPropertyBy (noted moment engine) id key)
        engine r (.object getter) (.object id) [] runs entries a r' := by
  have hthis : (Value.object id).links ⊆ links := fun l hl => List.mem_singleton.mp hl ▸ hid
  have hargs : valueLinks [] ⊆ links := List.nil_subset _
  obtain ⟨runs, entries, outcome, r', hcall, -⟩ := exists_comesTo_accessor engine ha
    (ha.heap.sees_findGetter? (.held hid) hg) hthis hargs
  have hruns (moment : Moment) := Runs.getter hg (hcall.noted moment)
  exact ⟨runs, entries, outcome, r',
    hcall.of_runs (fun moment => (hruns moment).1) rfl (fun _ he => he) fun _ he => ⟨he, rfl⟩,
    hcall.of_runs (fun moment => (hruns moment).2) rfl (fun _ he => he) fun _ he => ⟨he, rfl⟩⟩

/-- **Writes make the call of the nearest setter**, and let its result go. -/
theorem exists_comesTo_setter (engine : Engine) {setter : NodeId} (ha : Runtime.Agree links r r)
    (hid : .object id ∈ links) (hv : v.links ⊆ links)
    (hg : r.heap.findSetter? id key = some setter) : ∃ runs entries a r',
      ComesTo (callSetter engine id key v) (fun moment => callSetterBy (noted moment engine) id key v)
        engine r (.object setter) (.object id) [v] runs entries a r' ∧
      ComesTo (setProperty engine id key v) (fun moment => setPropertyBy (noted moment engine) id key v)
        engine r (.object setter) (.object id) [v] runs entries a r' := by
  have hthis : (Value.object id).links ⊆ links := fun l hl => List.mem_singleton.mp hl ▸ hid
  have hargs : valueLinks [v] ⊆ links := by
    rw [valueLinks_singleton]
    exact hv
  obtain ⟨runs, entries, outcome, r', hcall, -⟩ := exists_comesTo_accessor engine ha
    (ha.heap.sees_findSetter? (.held hid) hg) hthis hargs
  obtain ⟨written, r'', hdrop, hcalls, herror, hback⟩ : ∃ written r'',
      (dropResult outcome).run r' = (written, r'') ∧ r''.engineCalls = r'.engineCalls ∧
      (∀ e, outcome = .error e → written = .error e) ∧
      ∀ e, written = .error e → outcome = .error e ∧ r'' = r' := by
    cases outcome with
    | ok result => exact ⟨.ok (), _, rfl, rfl, fun _ he => (by cases he), fun _ he => (by cases he)⟩
    | error cause =>
      refine ⟨.error cause, r', rfl, rfl, fun e he => ?_, fun e he => ⟨?_, rfl⟩⟩
      · exact congrArg Except.error (Except.error.inj he)
      · exact congrArg Except.error (Except.error.inj he)
  have hruns (moment : Moment) := Runs.setter hg (hcall.noted moment) hdrop
  exact ⟨runs, entries, written, r'',
    hcall.of_runs (fun moment => (hruns moment).1) hcalls herror hback,
    hcall.of_runs (fun moment => (hruns moment).2) hcalls herror hback⟩

end RunM

namespace Access

open RunM (ComesTo)

variable {access : Access} {r : Runtime} {c : Calling} {links : List Link}

/-- **An access comes to the call that it makes.** -/
theorem exists_comesTo (access : Access) (ha : Runtime.Agree links r r)
    (hlinks : access.links ⊆ links) (hc : access.call? r.heap = some c) : ∃ runs entries a r',
      ComesTo access.run access.noted c.engine r c.callee c.this c.args runs entries a r' := by
  cases access with
  | call d =>
    obtain rfl := Option.some.inj hc
    obtain ⟨runs, entries, a, r', h, -⟩ := RunM.exists_comesTo_call d.engine ha
      (fun l hl => hlinks (List.mem_append_left _ (List.mem_append_left _ hl)))
      (fun l hl => hlinks (List.mem_append_left _ (List.mem_append_right _ hl)))
      fun l hl => hlinks (List.mem_append_right _ hl)
    exact ⟨runs, entries, a, r', h⟩
  | getProperty engine id key =>
    obtain ⟨getter, hg, rfl⟩ := Option.map_eq_some_iff.mp hc
    obtain ⟨runs, entries, a, r', -, h⟩ := RunM.exists_comesTo_getter engine ha
      (hlinks List.mem_cons_self) hg
    exact ⟨runs, entries, a, r', h⟩
  | callGetter engine id key =>
    obtain ⟨getter, hg, rfl⟩ := Option.map_eq_some_iff.mp hc
    obtain ⟨runs, entries, a, r', h, -⟩ := RunM.exists_comesTo_getter engine ha
      (hlinks List.mem_cons_self) hg
    exact ⟨runs, entries, a, r', h⟩
  | setProperty engine id key v =>
    obtain ⟨setter, hg, rfl⟩ := Option.map_eq_some_iff.mp hc
    obtain ⟨runs, entries, a, r', -, h⟩ := RunM.exists_comesTo_setter engine ha
      (hlinks List.mem_cons_self) (fun l hl => hlinks (List.mem_cons_of_mem _ hl)) hg
    exact ⟨runs, entries, _, r', h.map fun _ => Value.object id⟩
  | callSetter engine id key v =>
    obtain ⟨setter, hg, rfl⟩ := Option.map_eq_some_iff.mp hc
    obtain ⟨runs, entries, a, r', h, -⟩ := RunM.exists_comesTo_setter engine ha
      (hlinks List.mem_cons_self) (fun l hl => hlinks (List.mem_cons_of_mem _ hl)) hg
    exact ⟨runs, entries, _, r', h.map fun _ => Value.object id⟩

/-- **An access that makes no call** runs nothing. -/
theorem exists_runs_nil (access : Access) (hc : access.call? r.heap = none) : ∃ a r',
    r'.engineCalls = r.engineCalls ∧
      ∀ moment, RunM.Runs access.run (access.noted moment) r a [] r' := by
  cases access with
  | call c => cases hc
  | getProperty engine id key =>
    refine ⟨_, _, ?_, fun moment => (RunM.Runs.noGetter (Option.map_eq_none_iff.mp hc)).2⟩
    rfl
  | callGetter engine id key =>
    refine ⟨_, _, ?_, fun moment => (RunM.Runs.noGetter (Option.map_eq_none_iff.mp hc)).1⟩
    rfl
  | setProperty engine id key v =>
    refine ⟨_, _, ?_, fun moment => (RunM.Runs.noSetter (Option.map_eq_none_iff.mp hc)).2.map _⟩
    rfl
  | callSetter engine id key v =>
    refine ⟨_, _, ?_, fun moment => (RunM.Runs.noSetter (Option.map_eq_none_iff.mp hc)).1.map _⟩
    rfl

end Access

end ScriptCore
