import Mathlib
import ScriptCore.Comparison

/-!
# Equality and order agree

Loose equality and the order of values take different ways through nested arrays: equality looks at
the lengths first and stops at the first pair of elements that differ, the order takes the first
difference and looks at the lengths last. They agree all the same on which values are equal:
`looseEquals_iff_compare_eq`.
-/

namespace ScriptCore

theorem compareLists_eq_eq_iff {α β : Type} {cmp : α → β → Ordering} {xs : List α} {ys : List β} :
    compareLists cmp xs ys = .eq ↔
      xs.length = ys.length ∧ ∀ p ∈ xs.zip ys, cmp p.1 p.2 = .eq := by
  induction xs generalizing ys with
  | nil => cases ys <;> simp [compareLists]
  | cons x xs ih =>
    cases ys with
    | nil => simp [compareLists]
    | cons y ys =>
      rw [compareLists, Ordering.then_eq_eq, ih]
      simp only [List.length_cons, List.zip_cons_cons, List.mem_cons, forall_eq_or_imp,
        Nat.add_right_cancel_iff]
      exact and_left_comm

namespace Heap

variable {h : Heap} {room : Nat}

/-- Where the elements of arrays agree, so do the arrays and all other values. -/
theorem looseEqualsWithin_iff_of_elements
    (helements : ∀ less, room = less + 1 → ∀ x y : Value,
      h.looseEqualsWithin less x y = true ↔ h.compareWithin less x y = .eq) (a b : Value) :
    h.looseEqualsWithin room a b = true ↔ h.compareWithin room a b = .eq := by
  rw [looseEqualsWithin, compareWithin]
  by_cases ha : a = .undefined
  · by_cases hb : b = .undefined
    · simp [ha, hb]
    · simp [ha, hb, eq_comm]
  by_cases hb : b = .undefined
  · simp [ha, hb]
  rw [if_neg (not_or.mpr ⟨ha, hb⟩), if_neg ha, if_neg hb]
  by_cases hs : (h.isString a || h.isString b) = true
  · rw [if_pos hs, if_pos hs, beq_iff_eq]
    exact compare_eq_iff_eq.symm
  rw [if_neg hs, if_neg hs]
  cases h.pair a b with
  | numbers x y =>
    -- Numbers that do not compare, `nan` being one of them, count as less.
    cases hc : x.compare? y with
    | none => simp [hc]
    | some o => simp [hc]
  | same => simp
  | arrays xs ys =>
    cases room with
    | zero => simp
    | succ less =>
      simp only [Bool.and_eq_true, beq_iff_eq, List.all_eq_true, compareLists_eq_eq_iff]
      exact and_congr_right fun _ => forall₂_congr fun p _ => helements less rfl p.1 p.2
  | callables f g => simp
  | unrelated => simp

/-- With the same room for arrays inside one another, the values are loosely equal that are equal in
order. -/
theorem looseEqualsWithin_iff (h : Heap) (room : Nat) (a b : Value) :
    h.looseEqualsWithin room a b = true ↔ h.compareWithin room a b = .eq := by
  induction room generalizing a b with
  | zero => exact looseEqualsWithin_iff_of_elements (fun less hl => by omega) a b
  | succ room ih =>
    refine looseEqualsWithin_iff_of_elements (fun less hl x y => ?_) a b
    obtain rfl : room = less := by omega
    exact ih x y

/-- **Two values are loosely equal exactly if they are equal in order.** -/
theorem looseEquals_iff_compare_eq (h : Heap) (a b : Value) :
    h.looseEquals a b = true ↔ h.compare a b = .eq :=
  looseEqualsWithin_iff h Comparison.maxDepth a b

end Heap

end ScriptCore
