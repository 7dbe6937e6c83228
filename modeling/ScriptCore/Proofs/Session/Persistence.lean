import ScriptCore.Proofs.Agreement.WholeSteps

/-!
# What stays through a run

A node that is alive after some more steps was there before with the same text and the same payload,
or it is new. Only what the steps attach payloads to, and clear payloads of, is excepted
(`Session.persists_run`).
-/

namespace ScriptCore

/-- What is known is that everything persists since a certain heap. -/
abbrev History.since (except : NodeId → Prop) (h : Heap) : History :=
  ⟨Heap.Persists except h, fun hm hk => hk.trans hm.persists⟩

namespace Session

/-- What the steps of a run attach, in order, each payload with its object. -/
def attachments (s : Session) : List Step → List (NodeId × Payload)
  | [] => []
  | step :: rest => (s.attachment? step.request).toList ++ (s.step step).2.attachments rest

/-- The objects whose payloads the steps of a run clear, in order. -/
def detachments (s : Session) : List Step → List NodeId
  | [] => []
  | step :: rest => (s.detachment? step.request).toList ++ (s.step step).2.detachments rest

/-- The objects that a run attaches payloads to, and those whose payloads it clears. -/
def targets (s : Session) (steps : List Step) : List NodeId :=
  (s.attachments steps).map Prod.fst ++ s.detachments steps

variable {except : NodeId → Prop}

theorem allows_since {s : Session} {r : Request} (h : Heap)
    (ha : ∀ a, s.attachment? r = some a → except a.1)
    (hd : ∀ id, s.detachment? r = some id → except id) :
    @Allows (.since except h) s r :=
  @Allows.mk (.since except h) s r (fun he hm hk => hk.trans (hm.persists (ha _ he)))
    (fun he hm hk => hk.trans (hm.persists (hd _ he))) (fun _ hm hk => hk.trans hm.persists)
    fun _ hm hk => hk.trans hm.persists

theorem allowsRun_since (h : Heap) (steps : List Step) :
    ∀ s : Session, (∀ id ∈ s.targets steps, except id) → @AllowsRun (.since except h) s steps := by
  induction steps with
  | nil => exact fun _ _ => trivial
  | cons step rest ih =>
    intro s ht
    have hmem {id : NodeId} (hm : id ∈ (s.attachment? step.request).toList.map Prod.fst ∨
        id ∈ (s.detachment? step.request).toList ∨ id ∈ (s.step step).2.targets rest) :
        except id := by
      refine ht id ?_
      simp only [targets, attachments, detachments, List.map_append, List.mem_append] at hm ⊢
      tauto
    refine ⟨allows_since h (fun a ha => hmem (Or.inl ?_)) fun id hd => hmem (Or.inr (Or.inl ?_)),
      ih _ fun id hid => hmem (Or.inr (Or.inr hid))⟩
    · exact List.mem_map_of_mem (Option.mem_toList.mpr ha)
    · exact Option.mem_toList.mpr hd

/-- **What stays through a run**: everything but the payloads of what the run attaches payloads to
and clears payloads of. -/
theorem persists_run {s : Session} (ha : Agree [] s s) (more : List Step)
    (ht : ∀ id ∈ s.targets more, except id) :
    Heap.Persists except s.heap (s.run more).2.heap := by
  let history : History := .since except s.heap
  have hstart : history.Admits s.heap := .refl except s.heap
  exact admits_run ha hstart (allowsRun_since s.heap more s ht)

theorem borrowed_run (steps : List Step) : (Session.initial.run steps).2.heap.borrowed = [] := by
  have hk : Heap.Persists (fun _ => True) Session.initial.heap
      (Session.initial.run steps).2.heap :=
    persists_run (Agree.initial trivial) steps fun _ _ => trivial
  exact hk.borrowed

end Session

end ScriptCore
