import ScriptCore.Proofs.Comparison.Equality
import ScriptCore.Proofs.Comparison.Numbers
import ScriptCore.Session.Run

/-!
# Loose and strict equality

Loose equality asks its questions of both sides at once: is either undefined, is either a string, and
what are the two compared as. Turning the sides round turns that pairing round (`Heap.pair_swap`) and
changes no answer, so loose equality is the same both ways round, through nested arrays and down to
the depth to which these are followed (`Heap.looseEqualsWithin_swap`).

It is weaker than strict equality. What is strictly equal is the same value, or two doubles at one
place on the line of all doubles, and such values are loosely equal. Of all values only `nan` is not
loosely equal to itself. An array with `nan` in it, or with itself in it, is: it is the same object,
and its members are not asked. `Heap.looseEquals_lawful` puts this together.
-/

namespace ScriptCore

namespace Numeric

variable {x y : Numeric} {o : Ordering}

theorem place?_of_compare? (hxy : x.compare? y = some o) :
    ∃ p q, x.place? = some p ∧ y.place? = some q := by
  cases hx : x.toDouble.place? with
  | none =>
    cases x with
    | integer n => rw [toDouble, Double.place?_ofInt] at hx; cases hx
    | double d => simp [compare?, Double.compare?, hx] at hxy
  | some p =>
    cases hy : y.toDouble.place? with
    | none =>
      cases y with
      | integer n => rw [toDouble, Double.place?_ofInt] at hy; cases hy
      | double d => simp [compare?, Double.compare?, hy] at hxy
    | some q => exact ⟨p, q, hx, hy⟩

theorem compare?_eq_symm (hxy : x.compare? y = some .eq) : y.compare? x = some .eq := by
  obtain ⟨p, q, hx, hy⟩ := place?_of_compare? hxy
  obtain ⟨o, ho, hswap⟩ := compare?_swap hx hy
  rw [hxy, Option.some.injEq] at ho
  rw [hswap, ← ho]
  rfl

theorem compare?_eq_comm (x y : Numeric) :
    (x.compare? y == some .eq) = (y.compare? x == some .eq) := by
  rw [Bool.eq_iff_iff, beq_iff_eq, beq_iff_eq]
  constructor
  · intro hxy; exact compare?_eq_symm hxy
  · intro hyx; exact compare?_eq_symm hyx

theorem compare?_self_iff (x : Numeric) : x.compare? x = some .eq ↔ x ≠ .double .nan := by
  cases x with
  | integer n => simp [compare?]
  | double d => cases d <;> simp [compare?, toDouble, Double.compare?, Double.place?]

end Numeric

theorem Callable.compare_eq_comm (p : Places Nat) (f g : Callable) :
    (f.compare p g == .eq) = (g.compare p f == .eq) := by
  have hswap : g.compare p f = (f.compare p g).swap :=
    (Callable.ordersOn_compare p).swap trivial trivial
  rw [hswap]
  cases f.compare p g <;> rfl

namespace Comparison

def Pairing.swap : Pairing → Pairing
  | .numbers a b => .numbers b a
  | .same => .same
  | .arrays xs ys => .arrays ys xs
  | .callables f g => .callables g f
  | .unrelated => .unrelated

end Comparison

namespace Heap

variable {h : Heap} {room : Nat} {a b : Value}

/-! ## The other way round -/

theorem pairObjects_swap (h : Heap) (x y : NodeId) : h.pairObjects y x = (h.pairObjects x y).swap := by
  rw [pairObjects, pairObjects]
  by_cases hxy : x = y
  · rw [if_pos hxy, if_pos hxy.symm]
    rfl
  · rw [if_neg hxy, if_neg (Ne.symm hxy)]
    cases (h.object? x).map Object.exotic with
    | none => cases (h.object? y).map Object.exotic with
      | none => rfl
      | some q => cases q <;> rfl
    | some o => cases (h.object? y).map Object.exotic with
      | none => cases o <;> rfl
      | some q => cases o <;> cases q <;> rfl

/-- **Two values the other way round** are the same pair the other way round. -/
theorem pair_swap (h : Heap) (a b : Value) : h.pair b a = (h.pair a b).swap := by
  cases a with
  | object x => cases b with
    | object y => exact pairObjects_swap h x y
    | _ => rfl
  | _ => cases b <;> rfl

/-- Where members are equal both ways round, so are arrays, and all other values. -/
theorem looseEqualsWithin_swap_of_elements
    (helements : ∀ less, room = less + 1 → ∀ x y : Value,
      h.looseEqualsWithin less x y = h.looseEqualsWithin less y x) (a b : Value) :
    h.looseEqualsWithin room a b = h.looseEqualsWithin room b a := by
  rw [looseEqualsWithin, looseEqualsWithin, pair_swap h a b]
  by_cases hu : a = .undefined ∨ b = .undefined
  · rw [if_pos hu, if_pos hu.symm]
    exact decide_eq_decide.mpr eq_comm
  have hu' : ¬(b = .undefined ∨ a = .undefined) := fun hc => hu hc.symm
  rw [if_neg hu, if_neg hu', Bool.or_comm (h.isString b)]
  by_cases hs : (h.isString a || h.isString b) = true
  · rw [if_pos hs, if_pos hs]
    exact Bool.beq_comm
  rw [if_neg hs, if_neg hs]
  -- Neither is undefined or a string, and so it is the pair that decides.
  cases h.pair a b with
  | numbers x y => exact Numeric.compare?_eq_comm x y
  | same => rfl
  | arrays xs ys =>
    cases room with
    | zero => rfl
    | succ less =>
      have hall : (xs.zip ys).all (fun p => h.looseEqualsWithin less p.1 p.2) =
          (ys.zip xs).all (fun p => h.looseEqualsWithin less p.1 p.2) := by
        rw [← List.zip_swap xs ys, List.all_map]
        congr 1
        funext p
        exact helements less rfl p.1 p.2
      show (xs.length == ys.length && _) = (ys.length == xs.length && _)
      rw [hall, Bool.beq_comm]
  | callables f g => exact Callable.compare_eq_comm h.places f g
  | unrelated => rfl

/-- **Loose equality is the same both ways round**, whatever room there is for nested arrays. -/
theorem looseEqualsWithin_swap (h : Heap) (room : Nat) :
    ∀ a b : Value, h.looseEqualsWithin room a b = h.looseEqualsWithin room b a := by
  induction room with
  | zero =>
    intro a b
    exact looseEqualsWithin_swap_of_elements (fun less hl => by omega) a b
  | succ room ih =>
    intro a b
    apply looseEqualsWithin_swap_of_elements
    intro less hl x y
    obtain rfl : room = less := by omega
    exact ih x y

/-! ## A value and itself -/

/-- **Only `nan` is not equal to itself.** An object is, whatever it holds. -/
theorem looseEquals_self_iff (h : Heap) (a : Value) :
    h.looseEquals a a = true ↔ a ≠ .double .nan := by
  rw [looseEquals_iff_compare_eq, compare]
  have hnumber (x : Numeric) (ha : a.numeric? = some x) :
      h.compareWithin Comparison.maxDepth a a = .eq ↔ x ≠ .double .nan := by
    rw [compareWithin_of_numeric? ha ha, ← Numeric.compare?_self_iff]
    cases x.compare? x <;> simp
  cases a with
  | undefined => simp [compareWithin_undefined_self]
  | object id => simp [compareWithin_self]
  | double d => simpa using hnumber (.double d) rfl
  | null => simpa using hnumber (.integer 0) rfl
  | boolean b => simpa using hnumber (.integer (if b then 1 else 0)) rfl
  | integer n => simpa using hnumber (.integer n) rfl

theorem eq_or_double_of_strictEquals (hab : a.strictEquals b = true) :
    (a = b ∧ a ≠ .double .nan) ∨ ∃ x y, a = .double x ∧ b = .double y ∧ x.equals y = true := by
  cases a <;> cases b <;> simp_all [Value.strictEquals]

/-- **What is strictly equal is loosely equal.** -/
theorem looseEquals_of_strictEquals (h : Heap) (hab : a.strictEquals b = true) :
    h.looseEquals a b = true := by
  rcases eq_or_double_of_strictEquals hab with ⟨rfl, hnan⟩ | ⟨x, y, rfl, rfl, hxy⟩
  · exact (looseEquals_self_iff h a).mpr hnan
  · have hcompare : Numeric.compare? (.double x) (.double y) = some .eq := by
      rw [Double.equals, beq_iff_eq] at hxy
      exact hxy
    rw [looseEquals_iff_compare_eq, compare, compareWithin_of_numeric? rfl rfl, hcompare]
    rfl

/-- **Loose equality is a lawful weakening of strict equality.** On every heap it is the same both
ways round, it holds wherever strict equality does, and every value is loosely equal to itself, with
the one exception of `nan`. -/
theorem looseEquals_lawful (h : Heap) (a b : Value) :
    (h.looseEquals a b = true ↔ h.looseEquals b a = true) ∧
      (a.strictEquals b = true → h.looseEquals a b = true) ∧
      (h.looseEquals a a = true ↔ a ≠ .double .nan) := by
  refine ⟨?_, ?_, looseEquals_self_iff h a⟩
  · rw [looseEquals, looseEquals, looseEqualsWithin_swap]
  · intro hab
    exact looseEquals_of_strictEquals h hab

/-- An array with `nan` and itself in it is equal to itself, and not to another array with `nan`. -/
example :
    let h := (Session.initial.run
      [⟨.store (.keep (.array [.double .nan])), some "first", none⟩,
        ⟨.object (.push (.register "first") (.register "first")), none, none⟩,
        ⟨.store (.keep (.array [.double .nan, .register "first"])), some "second", none⟩]).2.heap
    h.looseEquals (.object 4) (.object 4) = true ∧ h.looseEquals (.object 4) (.object 5) = false := by
  decide +kernel

end Heap

end ScriptCore
