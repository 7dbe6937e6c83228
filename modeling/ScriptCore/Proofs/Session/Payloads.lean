import ScriptCore.Proofs.Heap.Releases
import ScriptCore.Proofs.Heap.Repeated
import ScriptCore.Proofs.Session.Persistence

/-!
# Payloads through a run

The account of a payload settles with every step that attaches none, and a step that attaches one
adds it (`Session.settles_step`). So every payload that a run attaches is released once at most, and
as long as its object can be reached it stays there, unless a step attaches another one to the object
or clears it (`Session.payloads_released_once`).
-/

namespace ScriptCore

/-- What is known is how the account of a payload has changed since it came to so much. -/
abbrev History.accounting (p : Payload) (n : Nat) : History :=
  ⟨fun h => p.Settles (h.accounted p []) n, fun hm hk => hm.settles.trans hk⟩

namespace Session

variable {s : Session} {p : Payload}

def attachedBy (s : Session) (steps : List Step) (p : Payload) : Nat :=
  ((s.attachments steps).map Prod.snd).count p

theorem settles_step_of_none (ha : Agree [] s s) (step : Step)
    (hnone : s.attachment? step.request = none) :
    p.Settles ((s.step step).2.heap.accounted p []) (s.heap.accounted p []) := by
  let history : History := .accounting p (s.heap.accounted p [])
  have hstart : Agree [] s s := ha.knowing (.of_eq rfl) (.of_eq rfl)
  have hallows : s.Allows step.request := by
    refine ⟨fun he _ _ => ?_, fun _ hd hk => hd.settles.trans hk, fun _ hd hk => hd.settles.trans hk,
      fun _ hb hk => hb.settles.trans hk⟩
    rw [hnone] at he
    cases he
  exact (hstart.step step hallows).heap.leftAdmits

/-- A step that attaches a payload. It is one thing that is known of the heaps before that, and
another one afterwards. -/
theorem settles_step_of_some (ha : Agree [] s s) (step : Step) {id : NodeId} {q : Payload}
    (hsome : s.attachment? step.request = some (id, q)) :
    p.Settles ((s.step step).2.heap.accounted p []) (s.heap.accounted p [] + [q].count p) := by
  obtain ⟨on, spec, hrequest⟩ : ∃ on spec, step.request = .object (.setPayload on spec) := by
    unfold attachment? at hsome
    split at hsome
    · next on spec he => exact ⟨on, spec, he⟩
    · cases hsome
  let before : History := .accounting p (s.heap.accounted p [])
  let after : History := .accounting p (s.heap.accounted p [] + [q].count p)
  have hstart : @Agree before [] s s := ha.knowing (.of_eq rfl) (.of_eq rfl)
  have hperform : @StepM.PerformsAlike after step.request.perform step.request.perform s s [] := by
    rw [hrequest] at hsome ⊢
    refine ObjectRequest.performsAlike_setPayload on spec hstart (fun he hat hk => ?_) fun hnone => ?_
    · rw [hsome] at he
      obtain ⟨rfl, rfl⟩ := Prod.mk.inj (Option.some.inj he)
      exact hat.settles.trans (hk.add_right _)
    · rw [hsome] at hnone
      cases hnone
  exact (Agree.step_of_endsAlike step hperform.endsAlike).heap.leftAdmits

/-- **The account of a payload settles with every step**, but for what the step attaches. -/
theorem settles_step (ha : Agree [] s s) (step : Step) :
    p.Settles ((s.step step).2.heap.accounted p [])
      (s.heap.accounted p [] + ((s.attachment? step.request).toList.map Prod.snd).count p) := by
  cases hat : s.attachment? step.request with
  | none => exact settles_step_of_none ha step hat
  | some a => exact settles_step_of_some ha step hat

/-- **The account of a payload settles with every run**, but for what its steps attach. -/
theorem settles_run (more : List Step) : ∀ {s : Session}, Agree [] s s →
    p.Settles ((s.run more).2.heap.accounted p []) (s.heap.accounted p [] + s.attachedBy more p) := by
  induction more with
  | nil => exact fun _ => .of_eq rfl
  | cons step rest ih =>
    intro s ha
    have hnext := ha.step step (s.allows_any _)
    have hcount : s.attachedBy (step :: rest) p =
        ((s.attachment? step.request).toList.map Prod.snd).count p +
          (s.step step).2.attachedBy rest p := by
      rw [attachedBy, attachments, List.map_append, List.count_append]
      rfl
    rw [hcount, ← Nat.add_assoc]
    exact (ih hnext).trans ((settles_step ha step).add_right _)

/-! ## Where payloads stay -/

/-- **A payload stays** with an object that can be reached, unless the run attaches another one to it
or clears it. -/
theorem payload?_eq_of_reachedFrom {t : Session} {id : NodeId} {except : NodeId → Prop}
    (ht : Agree [] t t) (hk : Heap.Persists except s.heap t.heap)
    (hf : t.heap.ReachedFrom (t.links.map Link.target) id) (hnot : ¬ except id) :
    t.heap.payload? id = s.heap.payload? id := by
  have hpayload (h : Heap) : h.payload? id = (h.node? id).bind Node.payload? := by
    rw [Heap.payload?, Heap.object?]
    cases h.node? id with
    | none => rfl
    | some node => cases node <;> rfl
  obtain ⟨node, hn⟩ := Heap.isLive_iff_node?.mp (Heap.Reachable.isLive_of_reachedFrom ht.heap.left hf)
  rw [hpayload, hpayload, hn]
  rcases hk.nodes hn with ⟨old, ho, _, hp⟩ | ⟨hnew, hp⟩
  · rw [ho]
    exact hp.resolve_left hnot
  · have hnone : s.heap.node? id = none := by
      rw [Heap.node?, Heap.cell?_eq_none_of_size_le hnew]
      rfl
    rw [hnone]
    exact hp.resolve_left hnot

/-- **Payloads are released when they should be.** After any steps, and any more steps: no payload is
there or has been released more often than before and than it has been attached, and if it reports
its release, exactly as often. An object that can be reached still has the payload it had, unless a
step has attached a payload to that very object or cleared it. -/
theorem payloads_released_once (steps more : List Step) :
    let s := (initial.run steps).2
    let t := (s.run more).2
    (∀ p, t.heap.released p + t.heap.attached p ≤
        s.heap.released p + s.heap.attached p + s.attachedBy more p) ∧
      (∀ name collects, t.heap.released (.watch name collects) +
          t.heap.attached (.watch name collects) =
        s.heap.released (.watch name collects) + s.heap.attached (.watch name collects) +
          s.attachedBy more (.watch name collects)) ∧
      ∀ id, t.heap.ReachedFrom (t.links.map Link.target) id → id ∉ s.targets more →
        t.heap.payload? id = s.heap.payload? id := by
  intro s t
  have hs : Agree [] s s := agree_run steps
  have ht : Agree [] t t := hs.run more (allowsRun_any more s)
  refine ⟨fun p => (settles_run more hs).1, fun name collects => (settles_run more hs).2 rfl,
    fun id hf hnot => ?_⟩
  exact payload?_eq_of_reachedFrom ht (persists_run hs more fun x hx => hx) hf hnot

/-- Two objects with payloads that collect when they are released, one of them still held. -/
def watched : List Step :=
  [⟨.store (.keep (.object [])), some "kept", none⟩,
    ⟨.object (.setPayload (.register "kept") (.watch "first" true)), none, none⟩,
    ⟨.store (.keep (.object [])), some "dropped", none⟩,
    ⟨.object (.setPayload (.register "dropped") (.watch "second" true)), none, none⟩]

/-- The one that is dropped is released once, in the middle of its death, and the other stays. -/
theorem payloads_released_once_watched :
    let s := (initial.run watched).2
    let t := (s.run [⟨.store (.dropRegister "dropped"), none, none⟩,
      ⟨.collector (.collect none), none, none⟩]).2
    t.heap.ReachedFrom (t.links.map Link.target) 4 ∧ s.heap.attached (.watch "second" true) = 1 ∧
      t.heap.released (.watch "second" true) + t.heap.attached (.watch "second" true) = 1 ∧
      t.heap.released (.watch "second" true) = 1 ∧
      t.heap.payload? 4 = some (.watch "first" true) := by
  intro s t
  have hclaim := payloads_released_once watched [⟨.store (.dropRegister "dropped"), none, none⟩,
    ⟨.collector (.collect none), none, none⟩]
  have hreached : t.heap.ReachedFrom (t.links.map Link.target) 4 :=
    ⟨4, List.mem_append_right _ (by decide +kernel), .refl⟩
  refine ⟨hreached, by decide +kernel, (hclaim.2.1 "second" true).trans (by decide +kernel),
    by decide +kernel, (hclaim.2.2 4 hreached (by decide +kernel)).trans (by decide +kernel)⟩

end Session

end ScriptCore
