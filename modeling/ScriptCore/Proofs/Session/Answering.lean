import ScriptCore.Proofs.Agreement.ScopeSteps
import ScriptCore.Session.Run

/-!
# Every step is answered

A failure of what a step was asked for is an answer, and nothing that a step does besides can fail
(`Succeeds`). So every step has an answer (`Session.run_whole`), and between two steps nothing is held
on behalf of either (`Session.temporaries_step`).
-/

namespace ScriptCore

namespace StepM

/-- An action that does not fail, whatever the session. -/
def Succeeds {α : Type} (m : StepM α) : Prop := ∀ s : Session, ∃ a s', m.run.run s = (.ok a, s')

namespace Succeeds

variable {α β : Type} {m : StepM α} {f : α → StepM β}

theorem pure (a : α) : Succeeds (Pure.pure a) := fun s => ⟨a, s, rfl⟩

theorem bind (hm : Succeeds m) (hf : ∀ a, Succeeds (f a)) : Succeeds (m >>= f) := by
  intro s
  obtain ⟨a, s₁, hm⟩ := hm s
  obtain ⟨b, s₂, hf⟩ := hf a s₁
  refine ⟨b, s₂, ?_⟩
  rw [ExceptT.run_bind, StateT.run_bind, hm]
  exact hf

theorem get : Succeeds (getThe Session) := fun s => ⟨s, s, rfl⟩

theorem set (s : Session) : Succeeds (MonadStateOf.set s : StepM PUnit) := fun _ => ⟨⟨⟩, s, rfl⟩

theorem onHeap (action : HeapM α) : Succeeds (StepM.onHeap action) := fun _ => ⟨_, _, rfl⟩

theorem optionForM (x : Option α) {g : α → StepM PUnit} (hg : ∀ a, Succeeds (g a)) :
    Succeeds (x.forM g) := by
  cases x with
  | none => exact pure _
  | some a => exact hg a

theorem listForM (xs : List α) {g : α → StepM PUnit} (hg : ∀ a, Succeeds (g a)) :
    Succeeds (xs.forM g) := by
  induction xs with
  | nil => exact pure _
  | cons a xs ih => exact (hg a).bind fun _ => ih

theorem tryCatch {handle : Failure → StepM α} (hh : ∀ cause, Succeeds (handle cause)) :
    Succeeds (MonadExcept.tryCatch m handle) := by
  intro s
  rw [ExceptT.run_tryCatch, StateT.run_bind]
  obtain ⟨r, s₁⟩ := m.run.run s
  cases r with
  | ok a => exact ⟨a, s₁, rfl⟩
  | error cause => exact hh cause s₁

/-! ## What a step does besides -/

theorem letGo (v : Value) : Succeeds (StepM.onHeap (HeapM.letGo v)) := onHeap _

theorem store (name : String) (v : Value) : Succeeds (StepM.store name v) :=
  get.bind fun _ => (set _).bind fun _ => optionForM _ fun old => letGo old

theorem recover (step : Step) (cause : Failure) : Succeeds (StepM.recover step cause) := by
  refine get.bind fun s => ?_
  dsimp only
  split
  · exact (onHeap _).bind fun v => (store _ v).bind fun _ => pure _
  · exact (optionForM _ fun v => letGo v).bind fun _ => pure _
  · exact pure _

theorem finish : Succeeds StepM.finish :=
  get.bind fun _ => (set _).bind fun _ => listForM _ fun v => letGo v

/-- **Whatever a step was asked for**, what is done around it does not fail. -/
theorem around (step : Step) (m : StepM Outcome) : Succeeds (StepM.around step m) :=
  (tryCatch (recover step)).bind fun _ => finish.bind fun _ => pure _

end Succeeds

end StepM

namespace Session

/-- **Every step is answered**: running it comes to its answer and the session afterwards. -/
theorem run_whole (s : Session) (step : Step) :
    (StepM.whole step).run.run s = (.ok (s.step step).1, (s.step step).2) := by
  obtain ⟨answer, s', hrun⟩ := StepM.Succeeds.around step step.request.perform s
  have hwhole : (StepM.whole step).run.run s = (.ok answer, s') := hrun
  rw [Session.step, hwhole]

theorem run_map_whole {β : Type} (f : Answer → β) (s : Session) (step : Step) :
    (f <$> StepM.whole step).run.run s = (.ok (f (s.step step).1), (s.step step).2) := by
  rw [ExceptT.run_map, StateT.run_map, run_whole]
  rfl

end Session

/-! ## Between two steps -/

namespace StepM

theorem temporaries_letGoAll (vs : List Value) : ∀ s : Session,
    ((vs.forM fun v => StepM.onHeap (HeapM.letGo v)).run.run s).2.temporaries = s.temporaries := by
  induction vs with
  | nil => exact fun s => rfl
  | cons v vs ih =>
    intro s
    exact ih _

/-- **Nothing is held** on behalf of a step that has ended. -/
theorem temporaries_around (step : Step) (m : StepM Outcome) (s : Session) :
    ((around step m).run.run s).2.temporaries = [] := by
  have hbody : Succeeds (tryCatch (do conclude step (← m)) (recover step)) :=
    Succeeds.tryCatch (Succeeds.recover step)
  obtain ⟨answer, s₁, hbody⟩ := hbody s
  obtain ⟨_, s₂, hfinish⟩ := Succeeds.finish s₁
  have hend : s₂.temporaries = [] := by
    have := temporaries_letGoAll s₁.temporaries { s₁ with temporaries := [] }
    have hrun : ((s₁.temporaries.forM fun v => StepM.onHeap (HeapM.letGo v)).run.run
        { s₁ with temporaries := [] }) = (.ok ⟨⟩, s₂) := hfinish
    rwa [hrun] at this
  unfold around
  rw [ExceptT.run_bind, StateT.run_bind, hbody]
  show ((finish >>= fun _ => pure answer).run.run s₁).2.temporaries = []
  rw [ExceptT.run_bind, StateT.run_bind, hfinish]
  exact hend

end StepM

theorem Session.temporaries_step (s : Session) (step : Step) :
    (s.step step).2.temporaries = [] := by
  have hend := StepM.temporaries_around step step.request.perform s
  have hrun : (StepM.around step step.request.perform).run.run s = _ := s.run_whole step
  rwa [hrun] at hend

end ScriptCore
