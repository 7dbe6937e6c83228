import ScriptCore.Proofs.Agreement.Answers
import ScriptCore.Proofs.Agreement.Literals
import ScriptCore.Session.Values

/-!
# Steps about values on sessions that agree

`PerformsAlike`: a step has the same outcome on both sides, which is held. Most steps take their
literals and then read: whatever they read is the same on heaps that agree. What order values are in
may depend on where things stand. A step that asks for it has the same outcome if things are known to
stand in the same places, and otherwise one that differs in nothing but its facts (`EndsAlike`).
-/

namespace ScriptCore

def Outcome.untold : Outcome → Outcome
  | .facts _ => .facts []
  | .value v => .value v

def ValueRequest.asksOrder : ValueRequest → Bool
  | .order .. | .sort _ => true
  | _ => false

namespace Heap.Agree

theorem runHostValue [History] {links : List Link} {h k : Heap} (ha : Agree links h k)
    (x : HostValue) :
    Together (Facts.hostValue x) (Facts.hostValue x) h k fun v h' k' =>
      Agree (v.links ++ links) h' k' := by
  cases x with
  | text s | present s => exact ha.runNewText s
  | size n =>
    refine Together.pure ?_
    rwa [Value.links_ofNat]
  | _ => exact Together.pure ha

end Heap.Agree

namespace StepM

variable [History] {s t : Session} {extra : List Link} {v w : Value} {m n : StepM Outcome}

/-! ## Outcomes -/

/-- A step performs the same on both sides, and its outcome is held. -/
def PerformsAlike (m n : StepM Outcome) (s t : Session) (extra : List Link) : Prop :=
  Alike m n s t extra fun o s' t' => Session.Agree (o.links ++ extra) s' t'

/-- A step comes to the same on both sides, whatever it tells. -/
def EndsAlike (m n : StepM Outcome) (s t : Session) (extra : List Link) : Prop :=
  PerformsAlike (Outcome.untold <$> m) (Outcome.untold <$> n) s t extra

theorem PerformsAlike.endsAlike (hm : PerformsAlike m n s t extra) : EndsAlike m n s t extra := by
  refine Alike.map hm fun o s' t' ha => ?_
  cases o <;> exact ha

theorem Alike.bindEnds {α : Type} {m n : StepM α} {f g : α → StepM Outcome}
    {R : α → Session → Session → Prop} (hm : Alike m n s t extra R)
    (hf : ∀ a s' t', R a s' t' → EndsAlike (f a) (g a) s' t' extra) :
    EndsAlike (m >>= f) (n >>= g) s t extra := by
  rw [EndsAlike, map_bind, map_bind]
  exact hm.bind hf

theorem endsAlike_heap_bind {f g : Heap → StepM Outcome}
    (hf : EndsAlike (f s.heap) (g t.heap) s t extra) :
    EndsAlike (StepM.heap >>= f) (StepM.heap >>= g) s t extra := by
  rw [EndsAlike, map_bind, map_bind]
  exact Alike.heap_bind hf

theorem endsAlike_facts (ha : Session.Agree extra s t) (xs ys : List (String × Snapshot)) :
    EndsAlike (return .facts xs) (return .facts ys) s t extra := by
  rw [EndsAlike, map_pure, map_pure]
  exact Alike.pure ha

theorem runFacts {xs ys : List (String × Snapshot)} (ha : Session.Agree extra s t)
    (he : ys = xs) : PerformsAlike (return .facts xs) (return .facts ys) s t extra := by
  rw [he]
  exact Alike.pure ha

theorem runFact {x y : Snapshot} (label : String) (ha : Session.Agree extra s t) (he : y = x) :
    PerformsAlike (fact label x) (fact label y) s t extra := by
  rw [he]
  exact Alike.pure ha

theorem runValueOf (ha : Session.Agree extra s t) (hv : s.heap.SeesValue (extra ++ s.links) v) :
    PerformsAlike (valueOf v) (valueOf v) s t extra :=
  (Alike.hold ha hv).bind fun _ _ _ ⟨ha, _⟩ => Alike.pure ha

theorem runShown {more : List Link} (ha : Session.Agree extra s t)
    (hv : s.heap.SeesValue (extra ++ s.links) v) :
    Alike (shown v) (shown v) s t more fun _ s' t' => Session.Agree extra s' t' ∧ s' = s := by
  refine Alike.heap_bind ?_
  rw [ha.heap.snapshot_eq hv]
  exact Alike.pure ⟨ha, rfl⟩

theorem runFactOf (label : String) (ha : Session.Agree extra s t)
    (hv : s.heap.SeesValue (extra ++ s.links) v) :
    PerformsAlike (factOf label v) (factOf label v) s t extra := by
  refine (runShown ha hv).bind fun x s₁ t₁ ⟨ha, _⟩ => ?_
  exact Alike.pure ha

omit [History] in
theorem sees_taken {extra : List Link} (hv : v.links ⊆ s.links) :
    s.heap.SeesValue (extra ++ s.links) v := .held fun _ hl => List.mem_append_right _ (hv hl)

omit [History] in
theorem sees_taken_of_mem {extra : List Link} {vs : List Value} (hm : v ∈ vs)
    (hvs : valueLinks vs ⊆ s.links) : s.heap.SeesValue (extra ++ s.links) v :=
  sees_taken fun _ hl => hvs (links_subset_valueLinks hm hl)

theorem runTake_bind {f g : Value → StepM Outcome} (l : Literal) (ha : Session.Agree extra s t)
    (hf : ∀ v s' t', Session.Agree extra s' t' → s'.heap.SeesValue (extra ++ s'.links) v →
      PerformsAlike (f v) (g v) s' t' extra) :
    PerformsAlike (take l >>= f) (take l >>= g) s t extra :=
  (runTake l ha).bind fun v s₁ t₁ ⟨ha, _, hv⟩ => hf v s₁ t₁ ha (sees_taken hv)

theorem runTakeTwo_bind {f g : Value → Value → StepM Outcome} (l l' : Literal)
    (ha : Session.Agree extra s t)
    (hf : ∀ v w s' t', Session.Agree extra s' t' → s'.heap.SeesValue (extra ++ s'.links) v →
      s'.heap.SeesValue (extra ++ s'.links) w → PerformsAlike (f v w) (g v w) s' t' extra) :
    PerformsAlike (take l >>= fun v => take l' >>= f v) (take l >>= fun v => take l' >>= g v)
      s t extra := by
  refine (runTake l ha).bind fun v s₁ t₁ ⟨ha, _, hv⟩ => ?_
  refine (runTake l' ha).bind fun w s₂ t₂ ⟨ha, hs, hw⟩ => ?_
  exact hf v w s₂ t₂ ha (sees_taken (List.Subset.trans hv hs)) (sees_taken hw)

theorem runFail {e : Error} (ha : Session.Agree extra s t)
    (he : s.heap.SeesError (extra ++ s.links) e) :
    PerformsAlike
      (do e.value?.forM fun v => StepM.onHeap (HeapM.hold v); StepM.fail (.error e))
      (do e.value?.forM fun v => StepM.onHeap (HeapM.hold v); StepM.fail (.error e)) s t extra := by
  cases hv : e.value? with
  | none =>
    refine Alike.fail ?_
    show Session.Agree (e.links ++ extra) s t
    rwa [Error.links_of_none hv]
  | some v =>
    refine (Alike.hold ha (he v hv)).bind fun _ s₁ t₁ ⟨ha, _⟩ => Alike.fail ?_
    show Session.Agree (e.links ++ extra) s₁ t₁
    rwa [Error.links_of_value? hv]

end StepM

namespace ValueRequest

open StepM

variable [History] {s t : Session} {extra : List Link}

/-- **Steps about values** perform the same on both sides. -/
theorem performsAlike (r : ValueRequest) (ha : Session.Agree extra s t)
    (hp : r.asksOrder = true → History.TellsPlaces) :
    PerformsAlike r.perform r.perform s t extra := by
  cases r with
  | parseNumber text => exact runFact "v" ha rfl
  | formatDouble d => exact runFact "text" ha rfl
  | binary op a b =>
    refine runTakeTwo_bind a b ha fun v w s₁ t₁ ha hv hw => ?_
    refine (Alike.onHeap_add Value.links ha (ha.heap.runBinary op hv hw)).bind
      fun x s₂ t₂ hq => Alike.pure hq.1
  | unary op l =>
    refine runTake_bind l ha fun v s₁ t₁ ha hv => Alike.pure ?_
    show Session.Agree ((Operator.unary op v).links ++ extra) s₁ t₁
    rwa [Value.links_scalar (Heap.Agree.scalar_unary op v)]
  | equality a b =>
    refine runTakeTwo_bind a b ha fun v w s₁ t₁ ha hv hw => ?_
    refine Alike.heap_bind (runFacts ha ?_)
    rw [ha.heap.looseEquals_eq hv hw]
  | order a b =>
    refine runTakeTwo_bind a b ha fun v w s₁ t₁ ha hv hw => ?_
    refine Alike.heap_bind ?_
    rw [ha.heap.compare_eq (hp rfl ha.heap.leftAdmits ha.heap.rightAdmits) hv hw]
    exact runFacts ha rfl
  | keyEquality a b =>
    refine runTakeTwo_bind a b ha fun v w s₁ t₁ ha hv hw => ?_
    refine Alike.heap_bind (runFacts ha ?_)
    rw [ha.heap.hashFeed_eq hv, ha.heap.hashFeed_eq hw]
  | sort items =>
    refine (runTakeAll items ha).bind fun vs s₁ t₁ hq => ?_
    obtain ⟨ha, _, hvs⟩ := hq
    have hsees : ∀ v ∈ vs, s₁.heap.SeesValue (extra ++ s₁.links) v := fun v hv =>
      sees_taken_of_mem hv hvs
    have hplaces := hp rfl ha.heap.leftAdmits ha.heap.rightAdmits
    obtain ⟨hsorted, hall⟩ := ha.heap.sorted_eq hplaces hsees
    refine Alike.heap_bind (runFact "v" ha ?_)
    rw [hsorted, ha.heap.map_snapshot_eq hall]
  | inspect l =>
    refine runTake_bind l ha fun v s₁ t₁ ha hv => ?_
    exact Alike.heap_bind (runFacts ha (ha.heap.inspection_eq hv))
  | display l =>
    refine runTake_bind l ha fun v s₁ t₁ ha hv => ?_
    refine Alike.heap_bind ?_
    rw [ha.heap.display_eq hv]
    exact runFact "text" ha rfl
  | predicates l =>
    refine runTake_bind l ha fun v s₁ t₁ ha hv => ?_
    refine Alike.heap_bind ?_
    rw [ha.heap.predicates_eq hv]
    exact runFact "is" ha rfl
  | convert target l =>
    refine runTake_bind l ha fun v s₁ t₁ ha hv => ?_
    refine Alike.heap_bind (runFact "v" ha ?_)
    rw [ha.heap.convert_eq target v hv]
    exact ha.heap.convertedSnapshot_eq (Heap.seesConverted_convert target v hv)
  | check target l =>
    refine runTake_bind l ha fun v s₁ t₁ ha hv => Alike.heap_bind ?_
    have hchecked := Heap.seesChecked_check target v hv
    rw [ha.heap.check_eq target v hv]
    cases hc : s₁.heap.check target v with
    | ok converted =>
      rw [hc] at hchecked
      exact runFact "v" ha (ha.heap.convertedSnapshot_eq hchecked)
    | error e =>
      rw [hc] at hchecked
      exact runFail ha hchecked
  | fromHost x =>
    exact (Alike.onHeap_add Value.links ha (ha.heap.runHostValue x)).bind
      fun v s₁ t₁ hq => Alike.pure hq.1
  | compareTexts a b => exact runFacts ha rfl
  | fromJson text =>
    unfold perform
    dsimp only
    cases hj : Json.ofText text with
    | none => exact Alike.fail ha
    | some json =>
      have hmake := (Heap.Agree.runOfJson (Json.sorted_ofText hj) ha.heap).mono fun _ _ _ hq => hq.1
      exact (Alike.onHeap_add Value.links ha hmake).bind fun v s₁ t₁ hq => Alike.pure hq.1
  | toJson l =>
    refine runTake_bind l ha fun v s₁ t₁ ha hv => Alike.heap_bind ?_
    rw [ha.heap.toJson_eq hv]
    cases hj : s₁.heap.toJson v with
    | ok json => exact runFact "json" ha rfl
    | error e =>
      refine Alike.fail ?_
      show Session.Agree (e.links ++ extra) s₁ t₁
      rwa [Error.links_of_none (Heap.Matches.value?_of_toJsonWithin _ _ _ _ hj)]

theorem endsAlike (r : ValueRequest) (ha : Session.Agree extra s t) (hr : r.asksOrder = true) :
    EndsAlike r.perform r.perform s t extra := by
  cases r with
  | order a b =>
    refine (runTake a ha).bindEnds fun v s₁ t₁ hv => ?_
    refine (runTake b hv.1).bindEnds fun w s₂ t₂ hw => ?_
    exact endsAlike_heap_bind (endsAlike_facts hw.1 _ _)
  | sort items =>
    refine (runTakeAll items ha).bindEnds fun vs s₁ t₁ hvs => ?_
    exact endsAlike_heap_bind (endsAlike_facts hvs.1 _ _)
  | _ => cases hr

end ValueRequest

end ScriptCore
