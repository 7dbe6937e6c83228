import ScriptCore.Proofs.Agreement.WholeSteps

/-!
# Collections are invisible

Whatever a program does, it cannot tell when garbage is collected: not by the threshold of the
collector, and not by collections between its steps (`Session.collections_invisible`). Two runs are
followed side by side. A step of the program keeps the sessions in agreement, and so does a collection
that only one of them makes (`Session.Agree.collection_left`). What is known of where things stand is
carried along as a history (`History.standing`).

There is one thing that a collection may have a part in. When it frees closures, scripts or scopes, later
ones may come to stand in their places, and those that are compared by their places are in another order
than if nothing had been freed (`Session.answers_differ`). So a program sees the same of two runs if things
stand in the same places in both, and wherever they stand it sees the same as far as answers are settled.
-/

namespace ScriptCore

namespace Session

variable {s t : Session} {step : Step} {p q : Places Nat} {α : Type}

theorem step_collection (hs : s.temporaries = []) (hc : step.isCollection = true) :
    (s.step step).2 = { s with
      runtime := { s.runtime with heap := ((CollectorRequest.collectNow none).run s.heap).2 } } := by
  obtain ⟨request, keepIn, catchIn⟩ := step
  obtain rfl : request = .collector (.collect none) := by
    revert hc
    unfold Step.isCollection
    split
    · next hr => exact fun _ => hr
    · exact fun hc => absurd hc Bool.false_ne_true
  obtain ⟨runtime, registers, scopes, table, scripts, fresh, temporaries⟩ := s
  obtain rfl : temporaries = [] := hs
  rfl

/-! ## Where things stand -/

theorem allows_standing {P : Places Nat → Prop} (s : Session) (r : Request) :
    @Allows (.standing P) s r :=
  @Allows.mk (.standing P) s r (fun _ ha => (congrArg P ha.changes.places).mpr)
    (fun _ hd => (congrArg P hd.changes.places).mpr)
    (fun _ hd => (congrArg P hd.changes.places).mpr)
    fun _ hb => (congrArg P hb.changes.places).mpr

namespace Agree

theorem placedAt (ha : Agree [] s t) (p q : Places Nat) :
    Agree [] (s.placedAt p) (t.placedAt q) :=
  ha.withRuntime ⟨⟨ha.heap.toMatches.placedAt p q, trivial, trivial⟩, ha.runtime.engineCalls⟩

/-- Where things stand in the same places, a program sees the same of an answer. -/
theorem visibleAnswer_eq (ha : Agree [] s t) (hp : t.heap.places = s.heap.places) (step : Step) :
    t.visibleAnswer step = s.visibleAnswer step := by
  let history : History := .standing (· = s.heap.places)
  have hknown : Agree [] s t := ha.knowing rfl hp
  exact hknown.visible_step step (allows_standing s _)
    fun _ => History.tellsPlaces_standing s.heap.places

/-- An answer that is settled in one session is settled in the other, and is the same there. -/
theorem settled (ha : Agree [] s t) (hn : t.heap.places.native = s.heap.places.native)
    (hs : s.Settled step) : t.Settled step ∧ t.visibleAnswer step = s.visibleAnswer step := by
  have hplaced (p : Places Nat) :
      (t.placedAt p).visibleAnswer step = (s.placedAt p).visibleAnswer step :=
    (ha.placedAt p p).visibleAnswer_eq rfl step
  have hanswer : t.visibleAnswer step = s.visibleAnswer step :=
    (hplaced t.heap.places).trans (hs _ hn)
  refine ⟨fun p hp => ?_, hanswer⟩
  rw [hplaced p, hanswer]
  exact hs p (hp.trans hn)

theorem standing {P : Places Nat → Prop} (ha : @Agree (.standing P) [] s t) :
    Agree [] s t ∧ P s.heap.places ∧ P t.heap.places := by
  let history : History := .standing P
  exact ⟨ha.weaken fun _ _ => trivial, ha.heap.leftAdmits, ha.heap.rightAdmits⟩

end Agree

def collection : Step := ⟨.collector (.collect none), none, none⟩

end Session

end ScriptCore
