import ScriptCore.Proofs.Comparison.Numbers
import ScriptCore.Proofs.Comparison.Pairs
import ScriptCore.Session.Run

/-!
# Comparing the other way round

Values without an order between them count as less whichever way round they are compared, so the
order of values is not the same both ways round in general. It is for values that are **comparable**
(`Heap.Comparable`): one of them is undefined or a string, or both are numbers, or functions, or the
same object, or arrays whose members are comparable place by place, down to the depth to which
arrays are followed. Then one is less than the other exactly if the other is greater than it:
`Heap.compare_swap_of_comparable`.
-/

namespace ScriptCore

open Comparison (OrdersOn)

theorem compareLists_swap {α : Type} {cmp : α → α → Ordering} {xs ys : List α}
    (hs : ∀ p ∈ xs.zip ys, cmp p.2 p.1 = (cmp p.1 p.2).swap) :
    compareLists cmp ys xs = (compareLists cmp xs ys).swap := by
  induction xs generalizing ys with
  | nil => cases ys <;> rfl
  | cons x xs ih =>
    cases ys with
    | nil => rfl
    | cons y ys =>
      rw [List.zip_cons_cons, List.forall_mem_cons] at hs
      rw [compareLists, compareLists, Ordering.swap_then, hs.1, ih hs.2]

namespace Heap

variable {h : Heap} {depth room : Nat} {a b : Value}

/-- Values with an order between them, inside so many arrays. -/
inductive Comparable (h : Heap) : Nat → Value → Value → Prop
  | undefinedLeft (depth : Nat) (b : Value) : Comparable h depth .undefined b
  | undefinedRight (depth : Nat) (a : Value) : Comparable h depth a .undefined
  | stringLeft {depth : Nat} {a : Value} (ha : h.isString a = true) (b : Value) :
      Comparable h depth a b
  | stringRight {depth : Nat} (a : Value) {b : Value} (hb : h.isString b = true) :
      Comparable h depth a b
  | numbers {depth : Nat} {a b : Value} (ha : a.isNumber = true) (hb : b.isNumber = true) :
      Comparable h depth a b
  | same (depth : Nat) (id : NodeId) : Comparable h depth (.object id) (.object id)
  | functions {depth : Nat} {a b : Value} (ha : h.isFunction a = true)
      (hb : h.isFunction b = true) : Comparable h depth a b
  | arrays {depth : Nat} {a b : Value} {xs ys : Array Value} (hd : depth < Comparison.maxDepth)
      (ha : h.elements? a = some xs) (hb : h.elements? b = some ys)
      (he : ∀ (i : Nat) (x y : Value), xs[i]? = some x → ys[i]? = some y →
        Comparable h (depth + 1) x y) :
      Comparable h depth a b

theorem compareWithin_swap_undefined (h : Heap) (room : Nat) (v : Value) :
    h.compareWithin room v .undefined = (h.compareWithin room .undefined v).swap := by
  by_cases hv : v = .undefined
  · rw [hv, compareWithin_undefined_self]
    rfl
  · rw [(compareWithin_undefined room hv).1, (compareWithin_undefined room hv).2]
    rfl

theorem compareWithin_swap_of_text (hs : h.isString a = true ∨ h.isString b = true) :
    h.compareWithin room b a = (h.compareWithin room a b).swap := by
  by_cases ha : a = .undefined
  · rw [ha, compareWithin_swap_undefined]
  by_cases hb : b = .undefined
  · rw [hb, compareWithin_swap_undefined, Ordering.swap_swap]
  rw [compareWithin_of_text ha hb hs, compareWithin_of_text hb ha hs.symm]
  exact Std.OrientedOrd.eq_swap

/-- **Comparable values** are compared the same both ways round, by induction on why they are
comparable. Inside `depth` arrays there is room for `maxDepth - depth` more. -/
theorem Comparable.compareWithin_swap (hc : h.Comparable depth a b) :
    ∀ {room : Nat}, depth + room = Comparison.maxDepth →
      h.compareWithin room b a = (h.compareWithin room a b).swap := by
  induction hc with
  | undefinedLeft depth b => exact fun _ => compareWithin_swap_undefined h _ b
  | undefinedRight depth a =>
    intro room _
    rw [compareWithin_swap_undefined, Ordering.swap_swap]
  | stringLeft ha b => exact fun _ => compareWithin_swap_of_text (Or.inl ha)
  | stringRight a hb => exact fun _ => compareWithin_swap_of_text (Or.inr hb)
  | numbers ha hb =>
    intro room _
    obtain ⟨x, p, hx, hp⟩ := Value.isNumber_iff.mp ha
    obtain ⟨y, q, hy, hq⟩ := Value.isNumber_iff.mp hb
    obtain ⟨o, hxy, hyx⟩ := Numeric.compare?_swap hp hq
    rw [compareWithin_of_numeric? hx hy, compareWithin_of_numeric? hy hx, hxy, hyx]
    rfl
  | same depth id =>
    intro room _
    rw [compareWithin_self]
    rfl
  | functions ha hb =>
    intro room _
    obtain ⟨f, hf⟩ := isFunction_iff.mp ha
    obtain ⟨g, hg⟩ := isFunction_iff.mp hb
    rw [compareWithin_of_callable? hf hg, compareWithin_of_callable? hg hf]
    exact (Callable.ordersOn_compare h.places).swap trivial trivial
  | @arrays depth a b xs ys hd ha hb _ ih =>
    intro room hroom
    obtain ⟨less, rfl⟩ : ∃ less, room = less + 1 := ⟨room - 1, by omega⟩
    by_cases hab : a = b
    · obtain ⟨id, _, rfl, _⟩ := object_of_elements? ha
      rw [← hab, compareWithin_self]
      rfl
    rw [compareWithin_of_elements? ha hb hab, compareWithin_of_elements? hb ha (Ne.symm hab)]
    refine compareLists_swap fun p hp => ?_
    obtain ⟨i, hi⟩ := List.mem_iff_getElem?.mp hp
    obtain ⟨hx, hy⟩ := List.getElem?_zip_eq_some.mp hi
    rw [Array.getElem?_toList] at hx hy
    exact ih i p.1 p.2 hx hy (by omega)

/-- **The order of comparable values is the same both ways round**: one is less than the other exactly
if the other is greater than it, and not greater exactly if the other is not less. -/
theorem compare_swap_of_comparable (hc : h.Comparable 0 a b) :
    h.compare b a = (h.compare a b).swap ∧
      ((h.compare a b).isLT = (h.compare b a).isGT ∧ (h.compare b a).isLT = (h.compare a b).isGT) ∧
      (h.compare a b).isLE = (h.compare b a).isGE ∧ (h.compare b a).isLE = (h.compare a b).isGE := by
  have hs : h.compare b a = (h.compare a b).swap := hc.compareWithin_swap (Nat.zero_add _)
  rw [hs]
  cases h.compare a b <;> decide

/-- An array that holds itself, and two arrays of numbers, strings and arrays with it among them. -/
def tangled : Session :=
  (Session.initial.run
    [⟨.store (.keep (.array [])), some "loop", none⟩,
      ⟨.object (.push (.register "loop") (.register "loop")), none, none⟩,
      ⟨.store (.keep (.array
        [.integer 1, .array [.text "b", .null], .register "loop", .undefined])), some "left", none⟩,
      ⟨.store (.keep (.array
        [.double (.ofInt 1), .array [.integer 5], .register "loop", .register "loop"])),
        some "right", none⟩]).2

/-- The two arrays are comparable: number with number, string with number, the same array, and
undefined with an array. -/
theorem compare_swap_of_comparable_tangled :
    tangled.heap.Comparable 0 (.object 7) (.object 9) ∧
      tangled.heap.compare (.object 7) (.object 9) = .gt ∧
      tangled.heap.compare (.object 9) (.object 7) = .lt := by
  have hleft : tangled.heap.elements? (.object 7) =
      some #[.integer 1, .object 6, .object 4, .undefined] := by decide +kernel
  have hright : tangled.heap.elements? (.object 9) =
      some #[.double (.ofInt 1), .object 8, .object 4, .object 4] := by decide +kernel
  have hinner : tangled.heap.Comparable 1 (.object 6) (.object 8) := by
    have hfirst : tangled.heap.elements? (.object 6) = some #[.object 5, .null] := by decide +kernel
    have hsecond : tangled.heap.elements? (.object 8) = some #[.integer 5] := by decide +kernel
    refine .arrays (by decide) hfirst hsecond fun i x y hx hy => ?_
    obtain ⟨rfl, rfl⟩ : i = 0 ∧ x = .object 5 := by
      rcases i with _ | i
      · exact ⟨rfl, (Option.some.inj hx).symm⟩
      · cases hy
    exact .stringLeft (by decide +kernel) y
  have hc : tangled.heap.Comparable 0 (.object 7) (.object 9) := by
    refine .arrays (by decide) hleft hright fun i x y hx hy => ?_
    match i with
    | 0 =>
      cases hx
      cases hy
      exact .numbers rfl (by decide +kernel)
    | 1 =>
      cases hx
      cases hy
      exact hinner
    | 2 =>
      cases hx
      cases hy
      exact .same 1 4
    | 3 =>
      cases hx
      exact .undefinedLeft 1 y
    | _ + 4 => cases hx
  have hgt : tangled.heap.compare (.object 7) (.object 9) = .gt := by decide +kernel
  refine ⟨hc, hgt, ?_⟩
  rw [(compare_swap_of_comparable hc).1, hgt]
  rfl

end Heap

end ScriptCore
