import ScriptCore.Object.Accessor
import ScriptCore.Object.Field
import ScriptCore.Proofs.Object.Chains

/-!
# Loops along a chain

Lookups are loops without a bound: ask an object, and if it does not answer go on to its prototype.
`Walk` says how such a loop ends. On a sound heap every such loop ends (`Sound.walk_iff`), and with
what the nearest object of the chain answers, so that a chain found beforehand may stand for the
loop.
-/

namespace ScriptCore

namespace Heap

/-- The loop along the prototypes comes to its end with a result: the answer of the first object that
answers, or none when there is no prototype any more. -/
inductive Walk {α : Type} (h : Heap) (ask : NodeId → Option α) :
    Option NodeId → Option α → Prop
  | ended : Walk h ask none none
  | answered {id : NodeId} {a : α} (ha : ask id = some a) : Walk h ask (some id) (some a)
  | onward {id : NodeId} {r : Option α} (ha : ask id = none)
      (hw : Walk h ask (h.prototype? id) r) : Walk h ask (some id) r

variable {α : Type} {h : Heap} {ask : NodeId → Option α} {start : Option NodeId} {r r' : Option α}
  {id : NodeId} {held : List NodeId}

theorem Walk.unique (hw : h.Walk ask start r) : h.Walk ask start r' → r = r' := by
  induction hw with
  | ended =>
    intro hw'
    cases hw'
    rfl
  | answered ha =>
    intro hw'
    cases hw' with
    | answered ha' => rw [← ha, ha']
    | onward hn _ => rw [ha] at hn; cases hn
  | onward hn _ ih =>
    intro hw'
    cases hw' with
    | answered ha => rw [hn] at ha; cases ha
    | onward _ hw' => exact ih hw'

/-- A walk that has come to its end with steps to spare is the whole loop. -/
theorem Sound.walk_chainFrom (hs : h.Sound held) (fuel : Nat) : ∀ start : Option NodeId,
    (∀ id, start = some id → ∃ o, h.object? id = some o) →
      (h.chainFrom (fuel + 1) start).length ≤ fuel →
        h.Walk ask start ((h.chainFrom fuel start).findSome? ask) := by
  induction fuel with
  | zero =>
    intro start hstart hl
    cases start with
    | none => exact .ended
    | some id =>
      obtain ⟨o, ho⟩ := hstart id rfl
      rw [chainFrom_succ ho] at hl
      simp at hl
  | succ fuel ih =>
    intro start hstart hl
    cases start with
    | none =>
      rw [chainFrom_none]
      exact .ended
    | some id =>
      obtain ⟨o, ho⟩ := hstart id rfl
      have hproto : h.prototype? id = o.prototype := by rw [prototype?, ho]; rfl
      rw [chainFrom_succ ho, List.findSome?_cons]
      cases ha : ask id with
      | some a => exact .answered ha
      | none =>
        refine .onward ha ?_
        rw [hproto]
        refine ih o.prototype (fun p hp => ?_) ?_
        · exact has_object_iff.mp (hs.has_of_inherits (inherits_of_object? ho hp))
        · rw [chainFrom_succ ho, List.length_cons] at hl
          omega

theorem lookupField_of_ownField? {o : Object} {key : String} {v : Value} (hkey : key ≠ protoKey)
    (ho : h.object? id = some o) (hv : o.ownField? key = some v) : h.lookupField id key = v := by
  obtain ⟨size, hsize⟩ := Nat.exists_eq_succ_of_ne_zero
    (Nat.ne_zero_of_lt (lt_size_of_node? (object?_eq_some_iff.mp ho)))
  rw [lookupField, if_neg hkey, inheritedField, chain, hsize, chainFrom_succ ho,
    List.findSome?_cons, ho, Option.bind_some, hv]
  rfl

namespace Sound

variable (hs : h.Sound held)

include hs

/-- **Every loop along a chain ends**, with the first answer that there is on the chain. -/
theorem walk_iff (hstart : ∀ id, start = some id → ∃ o, h.object? id = some o) :
    h.Walk ask start r ↔ r = (h.chainFrom h.cells.size start).findSome? ask := by
  have hw : h.Walk ask start ((h.chainFrom h.cells.size start).findSome? ask) :=
    hs.walk_chainFrom h.cells.size start hstart (hs.length_chainFrom_le _ _)
  constructor
  · intro hr
    exact hr.unique hw
  · rintro rfl
    exact hw

theorem tail_chain {o : Object} (ho : h.object? id = some o) :
    (h.chain id).tail = h.chainFrom h.cells.size o.prototype := by
  rw [chain, ← hs.chainFrom_of_le (Nat.le_succ _), chainFrom_succ ho, List.tail_cons]

theorem object_of_prototype? {p : NodeId} (hp : h.prototype? id = some p) :
    ∃ o, h.object? p = some o := has_object_iff.mp (hs.has_of_inherits hp)

end Sound

end Heap

end ScriptCore
