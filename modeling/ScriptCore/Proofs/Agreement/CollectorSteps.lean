import ScriptCore.Proofs.Session.Visible

/-!
# Steps about the collector on sessions that agree

A collection, the threshold and the statistics say what cannot be seen otherwise. With the facts left
out that tell of the collector (`Request.hidden`), every step performs the same on both sides
(`Request.performsAlike`) unless it asks what order values are in, and things are not known to stand in
the same places. Even so it comes to the same, whatever it tells (`Request.endsAlike`).
-/

namespace ScriptCore

namespace Heap.Agree

variable [History] {h k : Heap} {links : List Link}

theorem setThreshold (ha : Agree links h k) (threshold other : Nat) :
    Agree links (h.setThreshold threshold) (k.setThreshold other) := by
  have hset := ha.configure threshold other h.displayDepth
  rw [show k.configure ⟨other, h.displayDepth⟩ = k.setThreshold other by rw [← ha.displayDepth]; rfl]
    at hset
  exact hset

theorem collectNow (ha : Agree links h k) (borrowed : Option NodeId) :
    Agree links ((CollectorRequest.collectNow borrowed).run h).2
      ((CollectorRequest.collectNow borrowed).run k).2 :=
  ((ha.collectWhile_left _).symm.collectWhile_left _).symm

end Heap.Agree

theorem Session.Agree.onHeap [History] {s t : Session} {extra : List Link} {h k : Heap}
    (ha : Session.Agree extra s t) (hk : Heap.Agree (extra ++ s.links) h k) :
    Session.Agree extra { s with runtime := { s.runtime with heap := h } }
      { t with runtime := { t.runtime with heap := k } } :=
  ha.withRuntime ⟨hk, ha.runtime.engineCalls⟩

namespace StepM

variable [History] {s t : Session} {extra more : List Link} {α β : Type}

theorem Alike.modify_bind {f g : PUnit → StepM β} {u w : Heap → Heap}
    {P : β → Session → Session → Prop}
    (hf : Alike (f ⟨⟩) (g ⟨⟩) { s with runtime := { s.runtime with heap := u s.heap } }
      { t with runtime := { t.runtime with heap := w t.heap } } more P) :
    Alike (StepM.onHeap (modify u) >>= f) (StepM.onHeap (modify w) >>= g) s t more P := hf

/-- **An operation on the heap whose answer is left out** may answer otherwise on the other side. -/
theorem Alike.unseen {m : HeapM α} {k : StepM β} {P : β → Session → Session → Prop}
    (ha : Session.Agree extra s t)
    (hm : Heap.Agree (extra ++ s.links) (m.run s.heap).2 (m.run t.heap).2)
    (hk : ∀ s' t', Session.Agree extra s' t' → Alike k k s' t' more P) :
    Alike (StepM.onHeap m >>= fun _ => k) (StepM.onHeap m >>= fun _ => k) s t more P :=
  hk _ _ (ha.onHeap hm)

omit [History] in
theorem without_fact (label : String) (x : Snapshot) :
    Outcome.without [label] <$> fact label x = return .facts [] := by
  rw [fact, map_pure, Outcome.without]
  simp [Facts.without]

end StepM

/-- An error about settings carries no value. -/
theorem Settings.value?_of_ofVariables {lookup : String → Option String} {e : Error}
    (he : Settings.ofVariables lookup = .error e) : e.value? = none := by
  have hread {name : String} {fallback : Nat} {e : Error}
      (he : Settings.readSetting lookup name fallback = .error e) : e.value? = none := by
    unfold Settings.readSetting at he
    split at he
    · cases he
    · split at he
      · cases he
      · exact Except.error.inj he ▸ rfl
  unfold Settings.ofVariables at he
  cases ht : Settings.readSetting lookup thresholdVariable default.gcThreshold with
  | error cause =>
    rw [ht] at he
    exact Except.error.inj he ▸ hread ht
  | ok threshold =>
    cases hd : Settings.readSetting lookup depthVariable default.maxDisplayDepth with
    | error cause =>
      rw [ht, hd] at he
      exact Except.error.inj he ▸ hread hd
    | ok depth =>
      rw [ht, hd] at he
      cases he

namespace CollectorRequest

open StepM

variable [History] {s t : Session} {extra more : List Link}

theorem runSettings (source : SettingsSource) (ha : Session.Agree extra s t) :
    Alike (settings source) (settings source) s t extra fun _ s' t' =>
      Session.Agree extra s' t' := by
  match source with
  | .default => exact Alike.pure ha
  | .json text =>
    unfold settings
    dsimp only
    cases Settings.ofText text with
    | none => exact Alike.fail ha
    | some settings => exact Alike.pure ha
  | .variables values =>
    unfold settings
    dsimp only
    cases hr : Settings.ofVariables fun name => values.lookup name with
    | ok settings => exact Alike.pure ha
    | error e =>
      refine Alike.fail ?_
      show Session.Agree (e.links ++ extra) s t
      rwa [Error.links_of_none (Settings.value?_of_ofVariables hr)]

/-! ## Requests -/

theorem performsAlike_collect (borrowed : Option Literal) (ha : Session.Agree extra s t) :
    PerformsAlike (Outcome.without ["collected"] <$> (collect borrowed).perform)
      (Outcome.without ["collected"] <$> (collect borrowed).perform) s t extra := by
  unfold perform
  simp only [map_bind, without_fact]
  refine (runTakeObject? borrowed ha).bind fun p s₁ t₁ ⟨ha, _, _⟩ => ?_
  exact Alike.unseen ha (ha.heap.collectNow p) fun s₂ t₂ ha => runFacts ha rfl

theorem performsAlike_stats (ha : Session.Agree extra s t) :
    PerformsAlike
      (Outcome.without ["collections", "live", "last", "total"] <$> CollectorRequest.stats.perform)
      (Outcome.without ["collections", "live", "last", "total"] <$> CollectorRequest.stats.perform)
      s t extra := by
  unfold perform
  simp only [map_bind, map_pure, Outcome.without, Facts.without]
  exact Alike.heap_bind (runFacts ha (by simp))

theorem performsAlike_threshold (threshold : Nat) (ha : Session.Agree extra s t) :
    PerformsAlike (CollectorRequest.threshold (some threshold)).perform
      (CollectorRequest.threshold (some threshold)).perform s t extra := by
  unfold perform
  refine Alike.modify_bind (Alike.heap_bind (runFact "threshold" ?_ rfl))
  exact ha.onHeap (ha.heap.setThreshold threshold threshold)

theorem performsAlike_readThreshold (ha : Session.Agree extra s t) :
    PerformsAlike
      (Outcome.without ["threshold"] <$> (CollectorRequest.threshold none).perform)
      (Outcome.without ["threshold"] <$> (CollectorRequest.threshold none).perform) s t extra := by
  unfold perform
  simp only [map_bind, without_fact]
  exact Alike.modify_bind (Alike.heap_bind (runFacts ha rfl))

theorem performsAlike_install (source : SettingsSource) (ha : Session.Agree extra s t) :
    PerformsAlike (configure source true).perform (configure source true).perform s t extra := by
  refine (runSettings source ha).bind fun settings s₁ t₁ ha => ?_
  refine Alike.modify_bind (Alike.heap_bind (runFacts ?_ rfl))
  exact ha.onHeap (ha.heap.configure settings.gcThreshold settings.gcThreshold _)

theorem performsAlike_configure (source : SettingsSource) (ha : Session.Agree extra s t) :
    PerformsAlike (Outcome.without ["active_threshold"] <$> (configure source false).perform)
      (Outcome.without ["active_threshold"] <$> (configure source false).perform) s t extra := by
  unfold perform
  simp only [map_bind]
  refine (runSettings source ha).bind fun settings s₁ t₁ ha => ?_
  simp only [Bool.false_eq_true, if_false, map_bind, map_pure, Outcome.without, Facts.without]
  exact Alike.heap_bind (runFacts ha (by simp))

end CollectorRequest

theorem StepM.performsAlike_without_nil [History] {s t : Session} {extra : List Link}
    {m : StepM Outcome} (hm : StepM.PerformsAlike m m s t extra) :
    StepM.PerformsAlike (Outcome.without [] <$> m) (Outcome.without [] <$> m) s t extra := by
  rwa [funext Outcome.without_nil, id_map']

theorem performsAlike_drops [History] {s t : Session} {extra : List Link}
    (ha : Session.Agree extra s t) :
    StepM.PerformsAlike (Outcome.without ["drops"] <$> ObjectRequest.drops.perform)
      (Outcome.without ["drops"] <$> ObjectRequest.drops.perform) s t extra := by
  unfold ObjectRequest.perform
  simp only [map_bind, StepM.without_fact]
  exact StepM.Alike.heap_bind (StepM.runFacts ha rfl)

/-- **Every step** performs the same on both sides, apart from what tells of the collector. -/
theorem Request.performsAlike [History] {s t : Session} {extra : List Link} (r : Request)
    (ha : Session.Agree extra s t) (hs : s.Allows r)
    (hp : r.asksOrder = true → History.TellsPlaces) :
    StepM.PerformsAlike (Outcome.without r.hidden <$> r.perform)
      (Outcome.without r.hidden <$> r.perform) s t extra := by
  cases r with
  | value r => exact StepM.performsAlike_without_nil (r.performsAlike ha hp)
  | store r => exact StepM.performsAlike_without_nil (r.performsAlike ha)
  | object r =>
    by_cases hr : r = .drops
    · subst hr
      exact performsAlike_drops ha
    · have hhidden : (Request.object r).hidden = [] := by
        cases r with
        | drops => exact absurd rfl hr
        | _ => rfl
      rw [hhidden]
      exact StepM.performsAlike_without_nil (r.performsAlike hr ha hs)
  | function r => exact StepM.performsAlike_without_nil (r.performsAlike ha hs hp)
  | scope r => exact StepM.performsAlike_without_nil (r.performsAlike ha hs)
  | collector r =>
    cases r with
    | collect borrowed => exact CollectorRequest.performsAlike_collect borrowed ha
    | stats => exact CollectorRequest.performsAlike_stats ha
    | threshold new =>
      cases new with
      | none => exact CollectorRequest.performsAlike_readThreshold ha
      | some threshold =>
        exact StepM.performsAlike_without_nil (CollectorRequest.performsAlike_threshold threshold ha)
    | configure source install =>
      cases install with
      | false => exact CollectorRequest.performsAlike_configure source ha
      | true =>
        exact StepM.performsAlike_without_nil (CollectorRequest.performsAlike_install source ha)

/-- **Every step** comes to the same on both sides, whatever it tells. -/
theorem Request.endsAlike [History] {s t : Session} {extra : List Link} (r : Request)
    (ha : Session.Agree extra s t) (hs : s.Allows r) :
    StepM.EndsAlike r.perform r.perform s t extra := by
  cases hr : r.asksOrder with
  | true =>
    cases r with
    | value r => exact r.endsAlike ha hr
    | function r => exact r.endsAlike ha hr
    | _ => cases hr
  | false =>
    have hm := (r.performsAlike ha hs fun hasks => absurd (hr.symm.trans hasks) Bool.noConfusion).endsAlike
    rwa [StepM.EndsAlike, Functor.map_map, funext fun o : Outcome => o.untold_without _] at hm

end ScriptCore
