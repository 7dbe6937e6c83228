import ScriptCore.Call
import ScriptCore.Proofs.Agreement.Calls
import ScriptCore.Proofs.Scopes.Copies
import ScriptCore.Proofs.Scopes.Increments

/-!
# Independent closures

Two copies of one compiled function, in scopes whose environments have nothing in common, are called
in any order. A call of one writes no scope around the other (`Heap.Apart.callCopy`), so what each of
them answers, and what becomes of its environment, depends on the number of its own calls alone
(`Heap.Apart.callCopies`): it is as if the other were never called.
-/

namespace ScriptCore

/-- One of two copies of a function. -/
inductive Copy where
  | first
  | second
deriving DecidableEq

def Copy.pick {α : Type} (a b : α) : Copy → α
  | .first => a
  | .second => b

/-- A call of one of two copies: what it is given, and whether the host keeps the outcome. -/
structure CopyCall where
  callee : Copy
  this : Value
  args : List Value
  keeps : Bool

abbrev Told := Except Error Operator.Outcome

def HeapM.forget : Except Error Value → HeapM Unit
  | .ok v => letGo v
  | .error e => (e.value?).forM letGo

theorem run_heap_bind {β : Type} (f : Heap → RunM β) (r : Runtime) :
    (RunM.heap >>= f).run r = (f r.heap).run r := rfl

namespace RunM

variable (copies : Copy → NodeId)

def callCopy (c : CopyCall) : RunM (Copy × Told) := do
  let outcome ← call .evaluator (.object (copies c.callee)) c.this c.args
  let answer := outcome.map (← heap).reading
  unless c.keeps do HeapM.forget outcome
  return (c.callee, answer)

def callCopies : List CopyCall → RunM (List (Copy × Told))
  | [] => return []
  | c :: calls => do
    let answer ← callCopy copies c
    return answer :: (← callCopies calls)

end RunM

namespace Variable

/-- One is added so many times: the answers, and the environment afterwards. -/
def increments (name : String) :
    Nat → List (List Variable) → List Told × List (List Variable)
  | 0, env => ([], env)
  | times + 1, env =>
    let (answer, env) := incremented name env
    let (answers, env) := increments name times env
    (answer :: answers, env)

end Variable

namespace Heap

variable {h k : Heap} {a x : NodeId} {f : Callable} {bytecode : List UInt8} {links more : List Link}
  {outcome : Except Error Value} {n : Nat}

/-! ## One call -/

/-- A call of bytecode in a scope adds one there, while the function is held. -/
theorem run_call_compiled (hf : h.callableOf? a = some f)
    (hbody : f.body = .compiled bytecode (some x))
    (hrun : (HeapM.increment x (Text.ofBytes bytecode)).run (h.addHandles f.references) =
      (outcome, k)) (this : Value) (args : List Value) (n : Nat) :
    (RunM.call .evaluator (.object a) this args).run ⟨h, n⟩ =
      (outcome, ⟨k.letGo (f.references.map .reference), n + 1⟩) := by
  have hcallable : h.callable? (.object a) = some f := hf
  have hplain : f.body ≠ .native .apply := fun he => by cases hbody.symm.trans he
  have hhold : (liftM (HeapM.holdCallable f) : RunM Unit).run ⟨h, n⟩ =
      ((), ⟨h.addHandles f.references, n⟩) := rfl
  have hlet : (liftM (HeapM.letGoCallable f) : RunM Unit).run ⟨k, n + 1⟩ =
      ((), ⟨k.letGo (f.references.map .reference), n + 1⟩) := rfl
  have henter : (RunM.runBody .evaluator a f (f.boundThis.getD this) args).run
      ⟨h.addHandles f.references, n⟩ = (outcome, ⟨k, n + 1⟩) := by
    rw [RunM.runBody, hbody]
    exact congrArg (fun run => (run.1, (⟨run.2, n + 1⟩ : Runtime))) hrun
  unfold RunM.call
  rw [run_heap_bind]
  dsimp only [Value.id?]
  rw [hcallable]
  dsimp only
  rw [run_bind_of_run hhold, if_neg hplain, run_bind_of_run henter, run_bind_of_run hlet]
  rfl

theorem Rebinds.map_reading_eq {written : NodeId → Prop} (hr : Rebinds written h k)
    (hh : Hosted (outcomeLinks outcome ++ links) h) (hk : Hosted (outcomeLinks outcome ++ more) k) :
    outcome.map k.reading = outcome.map h.reading := by
  cases outcome with
  | ok v =>
    exact congrArg Except.ok (hr.reading_eq hh hk (hh.hasValue (List.subset_append_left _ _))
      (hk.hasValue (List.subset_append_left _ _)))
  | error e => rfl

/-- **A call of a copy** adds one to the variable that its bytecode names, in its scope. -/
theorem Hosted.call (hh : Hosted links h) (ha : .object a ∈ links) (hf : h.callableOf? a = some f)
    (hbody : f.body = .compiled bytecode (some x)) (this : Value) (args : List Value) (n : Nat) :
    ∃ outcome k, (RunM.call .evaluator (.object a) this args).run ⟨h, n⟩ = (outcome, ⟨k, n + 1⟩) ∧
      Hosted (outcomeLinks outcome ++ links) k ∧ Rebinds (· ∈ h.scopes x) h k ∧
      (outcome.map k.reading, k.environment x) =
        Variable.incremented (Text.ofBytes bytecode) (h.environment x) := by
  -- The function is held.
  obtain ⟨hh₁, hg₁⟩ := hh.holdCallable ha hf
  have hx : Link.scope x ∈ f.links ++ links := by
    refine List.mem_append_left _ (List.mem_append_right _ ?_)
    rw [hbody]
    exact List.mem_singleton.mpr rfl
  obtain ⟨s, hs⟩ := hh.exists_scope_of_body ha hf hbody
  have hlt : x < h.cells.size := lt_size_of_node? (scope?_eq_some_iff.mp hs)
  rw [← hg₁.environment_eq hh hh₁ hlt (hh₁.exists_scope hx),
    ← hg₁.rebinds.scopes_eq hh hh₁ hlt (hh₁.exists_scope hx)]
  -- Its bytecode is run.
  obtain ⟨hh₂, hr₂, hanswer⟩ := hh₁.increment hx (Text.ofBytes bytecode)
  rcases hrun : (HeapM.increment x (Text.ofBytes bytecode)).run (h.addHandles f.references)
    with ⟨outcome, h₂⟩
  rw [hrun] at hh₂ hr₂ hanswer
  dsimp only at hh₂ hr₂ hanswer
  -- It is let go.
  obtain ⟨hk, hg⟩ := (hh₂.perm (List.perm_append_comm_assoc ..)).letGoCallable
  have hr := (Rebinds.of_grows hg₁).trans (hr₂.trans (.of_grows hg))
  have hka := List.mem_append_right (outcomeLinks outcome) ha
  have hkx := hk.exists_scope_of_body hka ((hr.callableOf?_eq hh hk ha hka).trans hf) hbody
  refine ⟨outcome, _, run_call_compiled hf hbody hrun this args n, hk, hr, ?_⟩
  have hlt₂ : x < h₂.cells.size := hlt.trans_le (hg₁.size_le.trans hr₂.size_le)
  rw [hg.environment_eq hh₂ hk hlt₂ hkx, hg.rebinds.map_reading_eq hh₂ hk, hanswer]

theorem Hosted.forget (hh : Hosted (outcomeLinks outcome ++ links) h) :
    let k := ((HeapM.forget outcome).run h).2
    Hosted links k ∧ Grows h k := by
  cases outcome with
  | ok v => exact hh.letGoValue
  | error e =>
    have hh : Hosted (e.links ++ links) h := hh
    cases he : e.value? with
    | none =>
      rw [Error.links_of_none he] at hh
      rw [HeapM.forget, he]
      exact ⟨hh, .refl h⟩
    | some v =>
      rw [Error.links_of_value? he] at hh
      rw [HeapM.forget, he]
      exact hh.letGoValue

/-! ## Calls of two copies -/

/-- **Two copies of one bytecode in environments that have no scope in common**, on a heap that a
program can come to. -/
structure Apart (copies scopes : Copy → NodeId) (bytecode : List UInt8) (links : List Link)
    (h : Heap) : Prop where
  hosted : Hosted links h
  held : ∀ c, .object (copies c) ∈ links
  callable : ∀ c, ∃ f, h.callableOf? (copies c) = some f ∧
    f.body = .compiled bytecode (some (scopes c))
  disjoint : ∀ {c d}, c ≠ d → (h.scopes (scopes c)).Disjoint (h.scopes (scopes d))

namespace Apart

variable {copies scopes : Copy → NodeId} (hp : Apart copies scopes bytecode links h)

include hp

theorem exists_scope (c : Copy) : ∃ s, h.scope? (scopes c) = some s := by
  obtain ⟨f, hf, hbody⟩ := hp.callable c
  exact hp.hosted.exists_scope_of_body (hp.held c) hf hbody

theorem scope_lt (c : Copy) : scopes c < h.cells.size := by
  obtain ⟨s, hs⟩ := hp.exists_scope c
  exact lt_size_of_node? (scope?_eq_some_iff.mp hs)

theorem rebinds {written : NodeId → Prop} (hr : Rebinds written h k) (hk : Hosted more k)
    (hheld : ∀ c, .object (copies c) ∈ more) : Apart copies scopes bytecode more k := by
  have hcallable (c : Copy) : ∃ f, k.callableOf? (copies c) = some f ∧
      f.body = .compiled bytecode (some (scopes c)) := by
    rw [hr.callableOf?_eq hp.hosted hk (hp.held c) (hheld c)]
    exact hp.callable c
  have hscopes (c : Copy) : k.scopes (scopes c) = h.scopes (scopes c) := by
    obtain ⟨f, hf, hbody⟩ := hcallable c
    exact hr.scopes_eq hp.hosted hk (hp.scope_lt c) (hk.exists_scope_of_body (hheld c) hf hbody)
  refine ⟨hk, hheld, hcallable, fun {c d} hne => ?_⟩
  rw [hscopes, hscopes]
  exact hp.disjoint hne

/-- **One call** does in the environment of the copy what is foreseen, and nothing in the other. -/
theorem callCopy (c : CopyCall) (n : Nat) :
    ∃ told k more, (RunM.callCopy copies c).run ⟨h, n⟩ = ((c.callee, told), ⟨k, n + 1⟩) ∧
      Apart copies scopes bytecode (more ++ links) k ∧ Rebinds (fun _ => True) h k ∧
      (told, k.environment (scopes c.callee)) =
        Variable.incremented (Text.ofBytes bytecode) (h.environment (scopes c.callee)) ∧
      ∀ d, d ≠ c.callee → k.environment (scopes d) = h.environment (scopes d) := by
  obtain ⟨f, hf, hbody⟩ := hp.callable c.callee
  obtain ⟨outcome, h₁, hrun, hh₁, hr₁, hanswer⟩ :=
    hp.hosted.call (hp.held c.callee) hf hbody c.this c.args n
  obtain ⟨more, k, hend, hk, hg⟩ : ∃ more k,
      (RunM.callCopy copies c).run ⟨h, n⟩ = ((c.callee, outcome.map h₁.reading), ⟨k, n + 1⟩) ∧
        Hosted (more ++ links) k ∧ Grows h₁ k := by
    cases hkeeps : c.keeps with
    | true =>
      refine ⟨outcomeLinks outcome, h₁, ?_, hh₁, .refl h₁⟩
      rw [RunM.callCopy, run_bind_of_run hrun, run_heap_bind, hkeeps]
      rfl
    | false =>
      obtain ⟨hk, hg⟩ := hh₁.forget
      refine ⟨[], _, ?_, hk, hg⟩
      rw [RunM.callCopy, run_bind_of_run hrun, run_heap_bind, hkeeps]
      rfl
  have hr : Rebinds (· ∈ h.scopes (scopes c.callee)) h k := hr₁.trans (.of_grows hg)
  have hapart : Apart copies scopes bytecode (more ++ links) k :=
    hp.rebinds hr hk fun c => List.mem_append_right _ (hp.held c)
  refine ⟨_, k, more, hend, hapart, hr.mono fun _ _ => trivial, ?_, fun d hd => ?_⟩
  · have hlt₁ := (hp.scope_lt c.callee).trans_le hr₁.size_le
    rw [hg.environment_eq hh₁ hk hlt₁ (hapart.exists_scope _), hanswer]
  · exact hr.environment_eq hp.hosted hk (hp.scope_lt d) (hapart.exists_scope d)
      fun z hz hw => hp.disjoint hd hz hw

omit hp in
/-- **Any number of calls, in any order.** What a copy answers, and what becomes of its environment,
depends on the number of its own calls alone. -/
theorem callCopies (calls : List CopyCall) : ∀ {links : List Link} {h : Heap},
    Apart copies scopes bytecode links h → ∀ n : Nat, ∃ told k more,
      (RunM.callCopies copies calls).run ⟨h, n⟩ = (told, ⟨k, n + calls.length⟩) ∧
      Apart copies scopes bytecode (more ++ links) k ∧ Rebinds (fun _ => True) h k ∧
      told.map Prod.fst = calls.map CopyCall.callee ∧
      ∀ d, (told.filter (·.1 = d), k.environment (scopes d)) =
        (Variable.increments (Text.ofBytes bytecode) (calls.countP (·.callee = d))
          (h.environment (scopes d))).map (List.map (Prod.mk d)) id := by
  induction calls with
  | nil =>
    intro links h hp n
    exact ⟨[], h, [], rfl, hp, .of_grows (.refl h), rfl, fun _ => rfl⟩
  | cons c calls ih =>
    intro links h hp n
    obtain ⟨answer, h₁, more₁, hrun₁, hp₁, hr₁, hown, hother⟩ := hp.callCopy c n
    obtain ⟨told, k, more, hrun, hpk, hr, hcallees, hforeseen⟩ := ih hp₁ (n + 1)
    refine ⟨(c.callee, answer) :: told, k, more ++ more₁, ?_, ?_, hr₁.trans hr, ?_, fun d => ?_⟩
    · rw [RunM.callCopies, run_bind_of_run hrun₁, run_bind_of_run hrun, List.length_cons,
        Nat.add_right_comm, Nat.add_assoc]
      rfl
    · rwa [List.append_assoc]
    · rw [List.map_cons, List.map_cons, hcallees]
    · have hrest := hforeseen d
      by_cases hd : c.callee = d
      · subst hd
        rw [List.countP_cons_of_pos (by simp), List.filter_cons_of_pos (by simp),
          Variable.increments, ← hown]
        obtain ⟨hfilter, henv⟩ := Prod.mk.inj hrest
        rw [hfilter, henv]
        rfl
      · rw [hother d (Ne.symm hd)] at hrest
        rw [List.countP_cons_of_neg (by simpa using hd), List.filter_cons_of_neg (by simpa using hd),
          hrest]

/-- **Each copy is as if the other were never called**, and counts in its own environment. -/
theorem callCopies_own (calls : List CopyCall) (n : Nat) (c : Copy) :
    let run := (RunM.callCopies copies calls).run ⟨h, n⟩
    let mine := calls.filter fun call => call.callee = c
    let alone := (RunM.callCopies copies mine).run ⟨h, n⟩
    run.1.filter (fun told => told.1 = c) = alone.1 ∧
      run.2.heap.environment (scopes c) = alone.2.heap.environment (scopes c) ∧
      (alone.1.map Prod.snd, alone.2.heap.environment (scopes c)) =
        Variable.increments (Text.ofBytes bytecode) mine.length (h.environment (scopes c)) := by
  obtain ⟨told, k, -, hrun, -, -, -, hforeseen⟩ := callCopies calls hp n
  obtain ⟨alone, k', -, hrun', -, -, hcallees, hforeseen'⟩ :=
    callCopies (calls.filter fun call => call.callee = c) hp n
  dsimp only
  rw [hrun, hrun']
  have hall : alone.filter (fun told => told.1 = c) = alone := by
    refine List.filter_eq_self.mpr fun told hm => decide_eq_true ?_
    have hm : told.1 ∈ alone.map Prod.fst := List.mem_map_of_mem hm
    rw [hcallees] at hm
    obtain ⟨call, hcall, he⟩ := List.mem_map.mp hm
    exact he ▸ of_decide_eq_true (List.mem_filter.mp hcall).2
  have hmine : (calls.filter fun call => call.callee = c).countP (fun call => call.callee = c) =
      (calls.filter fun call => call.callee = c).length :=
    List.countP_eq_length.mpr fun call hcall => (List.mem_filter.mp hcall).2
  have hrest := hforeseen c
  have halone := hforeseen' c
  rw [List.countP_eq_length_filter] at hrest
  rw [hall, hmine] at halone
  obtain ⟨htold, henv⟩ := Prod.mk.inj (hrest.trans halone.symm)
  obtain ⟨hanswers, hafter⟩ := Prod.mk.inj halone
  refine ⟨htold, henv, Prod.ext ?_ hafter⟩
  show alone.map Prod.snd = _
  rw [hanswers, List.map_map]
  exact List.map_id _

end Apart

theorem Copied.apart {t b y : NodeId} (hc : Copied h t a b x y f bytecode) (hh : Hosted links h)
    (ha : .object a ∈ links) (hb : .object b ∈ links)
    (hd : (h.scopes x).Disjoint (h.scopes y)) :
    Apart (Copy.pick a b) (Copy.pick x y) bytecode links h where
  hosted := hh
  held c := by cases c <;> assumption
  callable c := by
    cases c with
    | first => exact ⟨_, hc.first, rfl⟩
    | second => exact ⟨_, hc.second, rfl⟩
  disjoint {c d} hne := by
    cases c <;> cases d
    · exact absurd rfl hne
    · exact hd
    · exact hd.symm
    · exact absurd rfl hne

end Heap

namespace Session

/-- **Closures of one template are independent.** After any steps, a compiled function that the host
holds is copied into two scopes that it holds, whose environments have no scope in common. Then the
two copies are called any number of times, in any order. Each of them answers what it answers if only
its own calls are made, and its environment is then the same too: what becomes of the environment that
it was given by adding one so many times. All the while the copies are equal to each other and to the
original, are not the same objects, and have different prototypes. -/
theorem closures_independent (steps : List Step) {t x y : NodeId} {f : Callable}
    {bytecode : List UInt8} {bound : Option NodeId}
    (ht : .object t ∈ (initial.run steps).2.links) (hx : .scope x ∈ (initial.run steps).2.links)
    (hy : .scope y ∈ (initial.run steps).2.links)
    (hf : (initial.run steps).2.heap.callableOf? t = some f)
    (hbody : f.body = .compiled bytecode bound)
    (hdisjoint : ((initial.run steps).2.heap.scopes x).Disjoint
      ((initial.run steps).2.heap.scopes y)) :
    ∃ a b h₁ h₂, (HeapM.copyCompiled t x).run (initial.run steps).2.heap = (.ok a, h₁) ∧
      (HeapM.copyCompiled t y).run h₁ = (.ok b, h₂) ∧
      ∀ (calls : List CopyCall) (n : Nat),
        let run := (RunM.callCopies (Copy.pick a b) calls).run ⟨h₂, n⟩
        run.2.heap.Twins t a b ∧
        ∀ c : Copy,
          let mine := calls.filter fun call => call.callee = c
          let alone := (RunM.callCopies (Copy.pick a b) mine).run ⟨h₂, n⟩
          run.1.filter (fun told => told.1 = c) = alone.1 ∧
            run.2.heap.environment (c.pick x y) = alone.2.heap.environment (c.pick x y) ∧
            (alone.1.map Prod.snd, alone.2.heap.environment (c.pick x y)) =
              Variable.increments (Text.ofBytes bytecode) mine.length
                ((initial.run steps).2.heap.environment (c.pick x y)) := by
  have hh := hosted steps
  obtain ⟨a, b, h₁, h₂, hrun₁, hrun₂, hh₂, hg, hc⟩ := hh.copyTwice ht hx hy hf hbody
  refine ⟨a, b, h₁, h₂, hrun₁, hrun₂, fun calls n => ?_⟩
  -- The environments are what they were before the copies were made.
  have hbefore {z : NodeId} (hz : Link.scope z ∈ (initial.run steps).2.links) :
      h₂.scopes z = (initial.run steps).2.heap.scopes z ∧
        h₂.environment z = (initial.run steps).2.heap.environment z := by
    have hlt := Heap.lt_size_of_isLive (hh.has (.scope z) hz).isLive
    have hs := hh₂.exists_scope (List.mem_cons_of_mem _ (List.mem_cons_of_mem _ hz))
    exact ⟨hg.rebinds.scopes_eq hh hh₂ hlt hs, hg.environment_eq hh hh₂ hlt hs⟩
  rw [← (hbefore hx).1, ← (hbefore hy).1] at hdisjoint
  have hp := hc.apart hh₂ (by simp) (by simp) hdisjoint
  have henv (c : Copy) : h₂.environment (c.pick x y) =
      (initial.run steps).2.heap.environment (c.pick x y) := by
    cases c with
    | first => exact (hbefore hx).2
    | second => exact (hbefore hy).2
  refine ⟨?_, fun c => henv c ▸ hp.callCopies_own calls n c⟩
  obtain ⟨told, k, more, hrun, hpk, hr, -⟩ := Heap.Apart.callCopies calls hp n
  rw [hrun]
  refine Heap.Copied.twins (hc.rebinds hr hh₂ hpk.hosted fun id hid => ?_) hbody
  have hm : Link.object id ∈ .object b :: .object a :: (initial.run steps).2.links := by
    simp only [List.mem_cons, List.not_mem_nil, or_false] at hid
    rcases hid with rfl | rfl | rfl <;> simp [ht]
  exact ⟨hm, List.mem_append_right _ hm⟩

/-- A template that counts, a scope inside one with a count, and one where the count is constant. -/
def counters : List Step :=
  [⟨.scope (.create "outer" none), none, none⟩,
    ⟨.scope (.define "outer" (.integer 0) "count" true), none, none⟩,
    ⟨.scope (.create "inner" (some "outer")), none, none⟩,
    ⟨.scope (.create "fixed" none), none, none⟩,
    ⟨.scope (.define "fixed" (.integer 100) "count" false), none, none⟩,
    ⟨.function (.create "next" [] false (.compiled "count")), some "next", none⟩]

/-- One copy counts in the outer scope, the other is refused, and neither minds the other. -/
theorem closures_independent_counters :
    ∃ a b h₁ h₂, (HeapM.copyCompiled 7 1).run (initial.run counters).2.heap = (.ok a, h₁) ∧
      (HeapM.copyCompiled 7 2).run h₁ = (.ok b, h₂) ∧
      let run := (RunM.callCopies (Copy.pick a b)
        [⟨.first, .undefined, [], false⟩, ⟨.second, .null, [.null], true⟩,
          ⟨.first, .integer 1, [], true⟩]).run ⟨h₂, 0⟩
      run.2.heap.Twins 7 a b ∧
        run.1.filter (fun told => told.1 = .first) =
          [(.first, .ok (.value (.integer 1))), (.first, .ok (.value (.integer 2)))] ∧
        run.2.heap.environment 1 = [[], [⟨"count", true, .value (.integer 2)⟩]] ∧
        run.1.filter (fun told => told.1 = .second) =
          [(.second, .error (.constAssignment "count"))] ∧
        run.2.heap.environment 2 = [[⟨"count", false, .value (.integer 100)⟩]] := by
  have hx : (initial.run counters).2.heap.scopes 1 = [1, 0] := by decide +kernel
  have hy : (initial.run counters).2.heap.scopes 2 = [2] := by decide +kernel
  obtain ⟨a, b, h₁, h₂, hrun₁, hrun₂, hall⟩ := closures_independent counters (t := 7) (x := 1)
    (y := 2) (f := ⟨"next", [], false, none, .compiled [99, 111, 117, 110, 116] none⟩)
    (by decide +kernel) (by decide +kernel) (by decide +kernel) (by decide +kernel) rfl
    (by rw [hx, hy]; simp)
  refine ⟨a, b, h₁, h₂, hrun₁, hrun₂, ?_⟩
  have hfirst₁ : ((HeapM.copyCompiled 7 1).run (initial.run counters).2.heap).1 = .ok 9 := by
    decide +kernel
  have hsecond₁ : ((HeapM.copyCompiled 7 2).run
      ((HeapM.copyCompiled 7 1).run (initial.run counters).2.heap).2).1 = .ok 11 := by decide +kernel
  rw [hrun₁] at hfirst₁ hsecond₁
  rw [hrun₂] at hsecond₁
  obtain rfl : a = 9 := Except.ok.inj hfirst₁
  obtain rfl : b = 11 := Except.ok.inj hsecond₁
  have hh : h₂ = ((HeapM.copyCompiled 7 2).run
      ((HeapM.copyCompiled 7 1).run (initial.run counters).2.heap).2).2 := by rw [hrun₁, hrun₂]
  obtain ⟨htwins, hown⟩ := hall [⟨.first, .undefined, [], false⟩, ⟨.second, .null, [.null], true⟩,
    ⟨.first, .integer 1, [], true⟩] 0
  obtain ⟨hfirst, henv₁, -⟩ := hown .first
  obtain ⟨hsecond, henv₂, -⟩ := hown .second
  refine ⟨htwins, hfirst.trans ?_, henv₁.trans ?_, hsecond.trans ?_, henv₂.trans ?_⟩
  all_goals
    rw [hh]
    decide +kernel

end Session

end ScriptCore
