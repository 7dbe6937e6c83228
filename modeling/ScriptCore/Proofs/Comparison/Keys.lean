import ScriptCore.Comparison

/-!
# Keys

As keys of a table, doubles count by their place on the line of all doubles: both zeros are one key,
and `nan`, which has no place, is another. Equality of keys is equality of that
(`Value.sameKey_iff`), so it is an equivalence, and equal keys add the same to a hash
(`Heap.hashFeed_eq_of_sameKey`).
-/

namespace ScriptCore

namespace Double

theorem place?_eq_none_iff {d : Double} : d.place? = none ↔ d = .nan := by
  cases d <;> simp [place?]

theorem equals_iff {x y : Double} :
    x.equals y = true ↔ x.place? = y.place? ∧ x.place? ≠ none := by
  rw [equals, compare?]
  cases hx : x.place? with
  | none => simp
  | some a =>
    cases hy : y.place? with
    | none => simp
    | some b => simp

theorem eq_or_isZero_of_place? {x y : Double} (hp : x.place? = y.place?) :
    x = y ∨ x.isZero = true ∧ y.isZero = true := by
  cases x with
  | nan => exact Or.inl (place?_eq_none_iff.mp hp.symm).symm
  | ranked negative rank =>
    cases y with
    | nan => simp [place?] at hp
    | ranked negative' rank' =>
      simp only [place?, Option.some.injEq] at hp
      by_cases hsign : negative = negative'
      · subst hsign
        refine Or.inl (congrArg (Double.ranked negative) (Fin.ext ?_))
        split at hp <;> omega
      · have hzero : rank.val = 0 ∧ rank'.val = 0 := by
          cases negative <;> cases negative' <;> simp only [Bool.false_eq_true, if_false, if_true,
            not_true_eq_false] at hp hsign <;> omega
        exact Or.inr ⟨beq_iff_eq.mpr hzero.1, beq_iff_eq.mpr hzero.2⟩

end Double

namespace Value

def key : Value → Value ⊕ Option Int
  | .double d => .inr d.place?
  | v => .inl v

/-- **Equality of keys.** -/
theorem sameKey_iff {a b : Value} : a.sameKey b = true ↔ a.key = b.key := by
  have hdouble (x y : Double) :
      (x = .nan ∧ y = .nan ∨ x.equals y = true) ↔ x.place? = y.place? := by
    rw [Double.equals_iff, ← Double.place?_eq_none_iff, ← Double.place?_eq_none_iff]
    constructor
    · rintro (⟨hx, hy⟩ | ⟨he, _⟩)
      · exact hx.trans hy.symm
      · exact he
    · intro he
      by_cases hx : x.place? = none
      · exact Or.inl ⟨hx, he.symm.trans hx⟩
      · exact Or.inr ⟨he, hx⟩
  cases a <;> cases b <;> simp [sameKey, strictEquals, key]
  exact hdouble _ _

theorem sameKey_refl (a : Value) : a.sameKey a = true := sameKey_iff.mpr rfl

theorem sameKey_symm {a b : Value} (h : a.sameKey b = true) : b.sameKey a = true :=
  sameKey_iff.mpr (sameKey_iff.mp h).symm

theorem sameKey_trans {a b c : Value} (hab : a.sameKey b = true) (hbc : b.sameKey c = true) :
    a.sameKey c = true := sameKey_iff.mpr ((sameKey_iff.mp hab).trans (sameKey_iff.mp hbc))

end Value

/-- **Equal keys add the same to a hash.** -/
theorem Heap.hashFeed_eq_of_sameKey (h : Heap) {a b : Value} (hk : a.sameKey b = true) :
    h.hashFeed a = h.hashFeed b := by
  have hkey := Value.sameKey_iff.mp hk
  have hdouble {x y : Double} (hp : x.place? = y.place?) :
      h.hashFeed (.double x) = h.hashFeed (.double y) := by
    rcases Double.eq_or_isZero_of_place? hp with rfl | ⟨hx, hy⟩
    · rfl
    · simp [hashFeed, Value.numeric?, Numeric.toDouble, hx, hy]
  cases a with
  | double x =>
    cases b with
    | double y => exact hdouble (Sum.inr.inj hkey)
    | _ => cases hkey
  | _ =>
    cases b <;> cases hkey
    rfl

end ScriptCore
