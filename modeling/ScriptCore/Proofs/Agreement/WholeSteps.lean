import ScriptCore.Proofs.Agreement.CollectorSteps

/-!
# Whole steps on sessions that agree

What a step holds at its end goes into a register or is let go, so that nothing is held on its
account any more. Two sessions that agree go on to agree after a step (`Session.Agree.step`). They
answer it the same, as far as it is visible, unless it asks what order values are in and things may
stand in other places on one side than on the other (`Session.Agree.visible_step`).
-/

namespace ScriptCore

namespace Session.Agree

variable [History] {s t : Session} {extra : List Link} {v : Value}

theorem valueFacts_eq (ha : Agree extra s t) (hv : s.heap.SeesValue (extra ++ s.links) v) :
    t.valueFacts v = s.valueFacts v := by
  unfold Session.valueFacts Session.registersOf
  rw [ha.heap.snapshot_eq hv, ha.registers_eq]

theorem failureAnswer_eq {cause : Failure} (ha : Agree (cause.links ++ extra) s t) :
    t.failureAnswer cause = s.failureAnswer cause := by
  cases cause with
  | error e =>
    have hsees : ∀ v, e.value? = some v → s.heap.SeesValue (e.links ++ extra ++ s.links) v := by
      intro v hv l hl
      rw [Error.links_of_value? hv]
      exact .held (List.mem_append_left _ (List.mem_append_left _ hl))
    have hheap : Heap.Agree (e.links ++ extra ++ s.links) s.heap t.heap := ha.heap
    have hvalue : e.value?.map t.heap.snapshot = e.value?.map s.heap.snapshot := by
      cases hv : e.value? with
      | none => rw [Option.map_none, Option.map_none]
      | some v => rw [Option.map_some, Option.map_some, hheap.snapshot_eq (hsees v hv)]
    unfold Session.failureAnswer
    dsimp only
    rw [hheap.message_eq hsees, hvalue]
  | _ => rfl

end Session.Agree

namespace StepM

variable [History] {s t : Session} {extra more : List Link} {v : Value}

theorem runStoreOrLetGo (name : Option String) (ha : Session.Agree (v.links ++ extra) s t) :
    Alike (storeOrLetGo name v) (storeOrLetGo name v) s t more fun _ s' t' =>
      Session.Agree extra s' t' := by
  cases name with
  | some name => exact runStore name ha
  | none => exact (Alike.letGo ha).mono fun _ s' t' ⟨ha, _⟩ => ha

theorem runConclude (step : Step) {o : Outcome} (ha : Session.Agree (o.links ++ extra) s t) :
    Alike (conclude step o) (conclude step o) s t more fun _ s' t' => Session.Agree extra s' t' := by
  cases o with
  | facts entries => exact Alike.pure ha
  | value v =>
    have ha : Session.Agree (v.links ++ extra) s t := ha
    refine Alike.get_bind ?_
    dsimp only
    rw [ha.valueFacts_eq (.held fun l hl => List.mem_append_left _ (List.mem_append_left _ hl))]
    exact (runStoreOrLetGo step.keepIn ha).bind fun _ s₁ t₁ ha => Alike.pure ha

/-- The answer of a step that failed gives up what the failure held. -/
theorem runRecover (step : Step) {cause : Failure} (ha : Session.Agree (cause.links ++ extra) s t) :
    Alike (recover step cause) (recover step cause) s t more fun _ s' t' =>
      Session.Agree extra s' t' := by
  refine Alike.get_bind ?_
  dsimp only
  rw [ha.failureAnswer_eq]
  cases cause with
  | error e =>
    have herror : Session.Agree (e.links ++ extra) s t := ha
    cases step.catchIn with
    | some name =>
      have hheap : Heap.Agree (e.links ++ (extra ++ s.links)) s.heap t.heap :=
        ha.heap.perm (List.Perm.of_eq (List.append_assoc ..))
      refine (Alike.onHeap_from Value.links herror hheap.runToValue).bind
        fun v s₁ t₁ ⟨ha, _⟩ => ?_
      exact (runStore name ha).bind fun _ s₂ t₂ ha => Alike.pure ha
    | none =>
      dsimp only
      cases hv : e.value? with
      | none =>
        rw [Error.links_of_none hv] at herror
        exact Alike.skip_bind (Alike.pure herror)
      | some v =>
        rw [Error.links_of_value? hv] at herror
        exact (Alike.letGo herror).bind fun _ s₁ t₁ ⟨ha, _⟩ => Alike.pure ha
  | _ => exact Alike.pure ha

theorem runFinish (ha : Session.Agree extra s t) :
    Alike finish finish s t more fun _ s' t' => Session.Agree extra s' t' := by
  have hfreed : Session.Agree (valueLinks s.temporaries ++ extra) { s with temporaries := [] }
      { t with temporaries := [] } := by
    obtain ⟨r, rfl⟩ := ha.exists_runtime
    refine ha.change ?_ rfl rfl rfl ha.distinct
    refine List.perm_iff_count.mpr fun l => ?_
    simp only [Session.links, valueLinks, List.flatMap_nil, List.count_append, List.count_nil]
    omega
  have htemporaries : t.temporaries = s.temporaries := by
    rw [← ha.same]
  refine Alike.get_bind (Alike.set_bind ?_)
  rw [htemporaries]
  exact (Alike.letGoAll s.temporaries hfreed).mono fun _ s' t' hq => hq.1

/-- **Whatever a step was asked for**, if that performs the same on both sides, so does the step. -/
theorem runAround (step : Step) {m : StepM Outcome} (hm : PerformsAlike m m s t extra) :
    Alike (around step m) (around step m) s t more fun _ s' t' => Session.Agree extra s' t' := by
  have hbody : Alike (do conclude step (← m)) (do conclude step (← m)) s t extra fun _ s' t' =>
      Session.Agree extra s' t' := hm.bind fun o s₁ t₁ ha => runConclude step ha
  refine (hbody.tryCatch (fun _ _ _ ha => ha) fun cause s₁ t₁ ha => runRecover step ha).bind
    fun answer s₁ t₁ ha => ?_
  exact (runFinish ha).bind fun _ s₂ t₂ ha => Alike.pure ha

omit [History] in
theorem run_around_of_run {step : Step} {m m' : StepM Outcome} {s s' : Session}
    (hrun : m.run.run s = m'.run.run s') :
    (around step m).run.run s = (around step m').run.run s' := by
  simp only [around, ExceptT.run_bind, ExceptT.run_tryCatch, StateT.run_bind, hrun]

end StepM

namespace Session

/-- The history allows all that a run of steps attaches and detaches. -/
def AllowsRun [History] (s : Session) : List Step → Prop
  | [] => True
  | step :: rest => s.Allows step.request ∧ (s.step step).2.AllowsRun rest

theorem allowsRun_of_forall [History] (hall : ∀ (s : Session) (r : Request), s.Allows r)
    (steps : List Step) : ∀ s : Session, s.AllowsRun steps := by
  induction steps with
  | nil => exact fun _ => trivial
  | cons step rest ih => exact fun s => ⟨hall s step.request, ih _⟩

theorem allowsRun_any (steps : List Step) : ∀ s : Session, s.AllowsRun steps :=
  allowsRun_of_forall allows_any steps

namespace Agree

variable [History] {s t : Session}

/-- **A step that comes to the same on both sides** keeps the sessions in agreement, whatever it
tells. -/
theorem step_of_endsAlike (step : Step)
    (hm : StepM.EndsAlike step.request.perform step.request.perform s t []) :
    Agree [] (s.step step).2 (t.step step).2 := by
  have hrun : StepM.Alike _ _ s t [] _ := StepM.runAround step hm
  have hforget : StepM.Alike (Function.const Answer () <$> StepM.around step _)
      (Function.const Answer () <$> StepM.around step _) s t [] fun _ s' t' => Agree [] s' t' :=
    hrun.map fun _ _ _ ha => ha
  rw [StepM.around_untold] at hforget
  obtain ⟨-, hagree⟩ := hforget
  rwa [← StepM.whole, run_map_whole, run_map_whole] at hagree

/-- **One step on sessions that agree.** They agree afterwards. -/
theorem step (ha : Agree [] s t) (step : Step) (hs : s.Allows step.request) :
    Agree [] (s.step step).2 (t.step step).2 :=
  step_of_endsAlike step (step.request.endsAlike ha hs)

/-- **The answers of sessions that agree** are the same as far as they are visible. -/
theorem visible_step (ha : Agree [] s t) (step : Step) (hs : s.Allows step.request)
    (hp : step.request.asksOrder = true → History.TellsPlaces) :
    step.request.visible (t.step step).1 = step.request.visible (s.step step).1 := by
  obtain ⟨hv, hi⟩ := step.request.hidden_disjoint
  have hrun : StepM.Alike _ _ s t [] _ :=
    StepM.runAround step (step.request.performsAlike ha hs hp)
  rw [← StepM.around_without hv hi] at hrun
  obtain ⟨hanswer, -⟩ := hrun
  rw [← StepM.whole, run_map_whole, run_map_whole] at hanswer
  exact Except.ok.inj hanswer

/-- **A run** keeps sessions in agreement. -/
theorem run (steps : List Step) : ∀ {s t : Session}, Agree [] s t → s.AllowsRun steps →
    Agree [] (s.run steps).2 (t.run steps).2 := by
  induction steps with
  | nil => exact fun ha _ => ha
  | cons step rest ih =>
    intro s t ha hs
    exact ih (ha.step step hs.1) hs.2

theorem initial (hp : History.Admits Heap.initial) : Agree [] Session.initial Session.initial :=
  ⟨⟨Heap.Agree.refl .initial (fun _ hm => absurd hm List.not_mem_nil) hp, rfl⟩, rfl,
    List.Pairwise.nil⟩

end Agree

/-- **What is known stays known** through a run that the history allows. The session agrees with
itself, so the history admits its heap on both sides, and at the end still does. -/
theorem admits_run {before after : History} {s : Session} (ha : @Agree before [] s s)
    (hs : after.Admits s.heap) {steps : List Step} (hallows : @AllowsRun after s steps) :
    after.Admits (s.run steps).2.heap := by
  have hstart : @Agree after [] s s := ha.knowing hs hs
  exact (hstart.run steps hallows).heap.leftAdmits

theorem admits_step [History] {s s' : Session} {step : Step} {m : StepM Outcome}
    (hrun : step.request.perform.run.run s = m.run.run s')
    (hm : StepM.PerformsAlike m m s' s' []) : History.Admits (s.step step).2.heap := by
  have hwhole : (StepM.around step step.request.perform).run.run s = _ := s.run_whole step
  rw [StepM.run_around_of_run hrun] at hwhole
  have hend : StepM.Alike (StepM.around step m) (StepM.around step m) s' s' [] fun _ t t' =>
      Agree [] t t' := StepM.runAround step hm
  exact (hend.of_ok hwhole).heap.leftAdmits

theorem agree_run (steps : List Step) :
    Agree [] (Session.initial.run steps).2 (Session.initial.run steps).2 :=
  (Agree.initial trivial).run steps (allowsRun_any steps _)

/-- **The heap of a session is reachable**, with what the session holds held on it. -/
theorem reachable_run (steps : List Step) :
    (Session.initial.run steps).2.heap.Reachable
      ((Session.initial.run steps).2.links.map Link.target) :=
  (agree_run steps).heap.left

end Session

end ScriptCore
