import Mathlib
import ScriptCore.Number.Double

/-!
# Rounding keeps the order

The double nearest to an integer does not fall when the integer grows: `Double.placeOfInt_mono`. Two
magnitudes with the same step between neighbours are rounded on the same grid, half to even, and that
keeps their order (`nearestOnGrid_mono`). If the steps differ, every double with the wider step is past
every double with the narrower one, except that the last of these may be the first of those
(`le_of_droppedDigits_lt`).

Integers of up to fifty-three binary digits are doubles themselves, so up to there the nearest double
does rise with the integer: `Double.placeOfInt_lt`.
-/

namespace ScriptCore

namespace Double

variable {m n step den : Nat}

/-! ## One grid -/

def nearestOnGrid (step num : Nat) : Nat :=
  num / step +
    (if step < 2 * (num % step) ∨ (2 * (num % step) = step ∧ num / step % 2 = 1) then 1 else 0)

theorem le_nearestOnGrid (step num : Nat) : num / step ≤ nearestOnGrid step num := Nat.le_add_right ..

theorem nearestOnGrid_le (step num : Nat) : nearestOnGrid step num ≤ num / step + 1 := by
  unfold nearestOnGrid
  split <;> omega

/-- **On one grid** rounding keeps the order. -/
theorem nearestOnGrid_mono (hmn : m ≤ n) : nearestOnGrid step m ≤ nearestOnGrid step n := by
  rcases Nat.lt_or_eq_of_le (Nat.div_le_div_right (c := step) hmn) with hlt | heq
  · exact (nearestOnGrid_le step m).trans (Nat.le_trans hlt (le_nearestOnGrid step n))
  · -- Between the same two neighbours, the larger magnitude is nearer to the upper one.
    have hrest : m % step ≤ n % step := by
      have hm := Nat.div_add_mod m step
      have hn := Nat.div_add_mod n step
      rw [heq] at hm
      omega
    unfold nearestOnGrid
    rw [heq]
    split_ifs <;> omega

/-! ## All grids -/

def droppedDigits (num den : Nat) : Nat := (num / den).log2 - 52

theorem nearestRank_eq (num den : Nat) :
    nearestRank num den = droppedDigits num den * blockSize +
      nearestOnGrid (den * 2 ^ droppedDigits num den) num := by
  rw [nearestOnGrid, ← Nat.add_assoc]
  rfl

theorem droppedDigits_mono (den : Nat) (hmn : m ≤ n) : droppedDigits m den ≤ droppedDigits n den := by
  unfold droppedDigits
  rw [Nat.log2_eq_log_two, Nat.log2_eq_log_two]
  exact Nat.sub_le_sub_right (Nat.log_mono_right (Nat.div_le_div_right hmn)) 52

theorem kept_lt (num den : Nat) :
    num / (den * 2 ^ droppedDigits num den) < 2 * blockSize := by
  rw [← Nat.div_div_eq_div_mul, Nat.div_lt_iff_lt_mul (Nat.two_pow_pos _)]
  calc num / den < 2 ^ ((num / den).log2 + 1) := Nat.lt_log2_self
    _ ≤ 2 ^ (53 + droppedDigits num den) :=
        Nat.pow_le_pow_right (by decide) (by unfold droppedDigits; omega)
    _ = 2 * blockSize * 2 ^ droppedDigits num den := by
        rw [Nat.pow_add]
        rfl

theorem blockSize_le_kept (hd : 0 < droppedDigits m den) :
    blockSize ≤ m / (den * 2 ^ droppedDigits m den) := by
  have hz : m / den ≠ 0 := by
    intro hz
    simp [droppedDigits, hz] at hd
  rw [← Nat.div_div_eq_div_mul, Nat.le_div_iff_mul_le (Nat.two_pow_pos _)]
  calc blockSize * 2 ^ droppedDigits m den = 2 ^ (52 + droppedDigits m den) := by
        rw [Nat.pow_add]
        rfl
    _ ≤ 2 ^ (m / den).log2 := Nat.pow_le_pow_right (by decide) (by unfold droppedDigits at *; omega)
    _ ≤ m / den := Nat.log2_self_le hz

/-- A magnitude whose step is wider than that of `m` is not rounded into the two blocks that the
magnitudes with the step of `m` lie in. -/
theorem blocks_le_nearestRank (hlt : droppedDigits m den < droppedDigits n den) :
    droppedDigits m den * blockSize + 2 * blockSize ≤ nearestRank n den := by
  have hn := (blockSize_le_kept (Nat.zero_lt_of_lt hlt)).trans
    (le_nearestOnGrid (den * 2 ^ droppedDigits n den) n)
  have hblocks : droppedDigits m den * blockSize + blockSize ≤ droppedDigits n den * blockSize := by
    rw [← Nat.succ_mul]
    exact Nat.mul_le_mul_right _ hlt
  rw [nearestRank_eq]
  omega

/-- **A wider step means a higher rank**, or the same. -/
theorem le_of_droppedDigits_lt (hlt : droppedDigits m den < droppedDigits n den) :
    nearestRank m den ≤ nearestRank n den := by
  have hm := (nearestOnGrid_le (den * 2 ^ droppedDigits m den) m).trans (kept_lt m den)
  refine Nat.le_trans ?_ (blocks_le_nearestRank hlt)
  rw [nearestRank_eq]
  exact Nat.add_le_add_left hm _

/-- **Rounding keeps the order** of magnitudes. -/
theorem nearestRank_mono (hmn : m ≤ n) : nearestRank m den ≤ nearestRank n den := by
  rcases Nat.lt_or_eq_of_le (droppedDigits_mono den hmn) with hlt | heq
  · exact le_of_droppedDigits_lt hlt
  · rw [nearestRank_eq, nearestRank_eq, heq]
    exact Nat.add_le_add_left (nearestOnGrid_mono hmn) _

/-- A magnitude on the grid is **not rounded**. -/
theorem nearestRank_of_dvd (hden : 0 < den) (hd : den * 2 ^ droppedDigits m den ∣ m) :
    nearestRank m den =
      droppedDigits m den * blockSize + m / (den * 2 ^ droppedDigits m den) := by
  have hstep : 0 < den * 2 ^ droppedDigits m den := Nat.mul_pos hden (Nat.two_pow_pos _)
  rw [nearestRank_eq, nearestOnGrid, Nat.mod_eq_zero_of_dvd hd, if_neg (by omega), Nat.add_zero]

/-- From a magnitude on the grid, the next step is a **higher rank**. -/
theorem nearestRank_lt_of_dvd (hden : 0 < den) (hd : den * 2 ^ droppedDigits m den ∣ m)
    (hn : m + den * 2 ^ droppedDigits m den ≤ n) : nearestRank m den < nearestRank n den := by
  have hstep : 0 < den * 2 ^ droppedDigits m den := Nat.mul_pos hden (Nat.two_pow_pos _)
  have hmn : m ≤ n := (Nat.le_add_right ..).trans hn
  rw [nearestRank_of_dvd hden hd]
  rcases Nat.lt_or_eq_of_le (droppedDigits_mono den hmn) with hlt | heq
  · exact (Nat.add_lt_add_left (kept_lt m den) _).trans_le (blocks_le_nearestRank hlt)
  · rw [nearestRank_eq, ← heq]
    refine Nat.add_lt_add_left (Nat.lt_of_lt_of_le ?_ (le_nearestOnGrid _ n)) _
    calc m / (den * 2 ^ droppedDigits m den)
        < (m + den * 2 ^ droppedDigits m den) / (den * 2 ^ droppedDigits m den) := by
          rw [Nat.add_div_right _ hstep]
          exact Nat.lt_succ_self _
      _ ≤ n / (den * 2 ^ droppedDigits m den) := Nat.div_le_div_right hn

/-! ## Integers -/

def placeOfInt (n : Int) : Int :=
  let rank : Int := min (nearestRank (n.natAbs * unitsPerOne) 1) topRank
  if n < 0 then -rank else rank

theorem place?_ofInt (n : Int) : (ofInt n).place? = some (placeOfInt n) := by
  simp only [ofInt, nearest, place?, placeOfInt, clampRank, decide_eq_true_eq, Nat.cast_min]

/-- **The double nearest to an integer** does not fall when the integer grows. -/
theorem placeOfInt_mono {m n : Int} (hmn : m ≤ n) : placeOfInt m ≤ placeOfInt n := by
  have hrank {a b : Nat} (hab : a ≤ b) : min (nearestRank (a * unitsPerOne) 1) topRank ≤
      min (nearestRank (b * unitsPerOne) 1) topRank :=
    min_le_min_right _ (nearestRank_mono (Nat.mul_le_mul_right _ hab))
  simp only [placeOfInt]
  split_ifs with hm hn hn
  · have := hrank (show n.natAbs ≤ m.natAbs by omega)
    omega
  · omega
  · omega
  · have := hrank (show m.natAbs ≤ n.natAbs by omega)
    omega

theorem droppedDigits_le {k e : Nat} (hk : k < 2 ^ 53) : droppedDigits (k * 2 ^ e) 1 ≤ e := by
  rcases Nat.eq_zero_or_pos k with rfl | hpos
  · rw [Nat.zero_mul]
    exact Nat.zero_le e
  have hlog : (k * 2 ^ e).log2 < 53 + e := by
    refine (Nat.log2_lt (Nat.mul_pos hpos (Nat.two_pow_pos e)).ne').mpr ?_
    rw [Nat.pow_add]
    exact Nat.mul_lt_mul_of_pos_right hk (Nat.two_pow_pos e)
  rw [droppedDigits, Nat.div_one]
  omega

/-- **Integers of fifty-three digits** are doubles, so the next integer has a higher rank. -/
theorem nearestRank_lt_succ {k e : Nat} (hk : k < 2 ^ 53) :
    nearestRank (k * 2 ^ e) 1 < nearestRank ((k + 1) * 2 ^ e) 1 := by
  have hdvd : 1 * 2 ^ droppedDigits (k * 2 ^ e) 1 ∣ 2 ^ e := by
    rw [Nat.one_mul]
    exact Nat.pow_dvd_pow 2 (droppedDigits_le hk)
  refine nearestRank_lt_of_dvd Nat.one_pos (hdvd.mul_left k) ?_
  rw [Nat.succ_mul k]
  exact Nat.add_le_add_left (Nat.le_of_dvd (Nat.two_pow_pos e) hdvd) _

theorem nearestRank_le_topRank {k : Nat} (hk : k ≤ 2 ^ 53) :
    nearestRank (k * unitsPerOne) 1 ≤ topRank :=
  (nearestRank_mono (Nat.mul_le_mul_right unitsPerOne hk)).trans (by decide +kernel)

theorem placeOfInt_natCast (k : Nat) :
    placeOfInt k = (min (nearestRank (k * unitsPerOne) 1) topRank : Nat) := by
  rw [placeOfInt, if_neg (by omega), Int.natAbs_natCast]
  exact (Nat.cast_min ..).symm

theorem placeOfInt_neg (n : Int) : placeOfInt (-n) = -placeOfInt n := by
  rcases lt_trichotomy n 0 with hn | rfl | hn
  · rw [placeOfInt, placeOfInt, if_neg (by omega), if_pos hn, Int.natAbs_neg, neg_neg]
  · decide +kernel
  · rw [placeOfInt, placeOfInt, if_pos (by omega), if_neg (by omega), Int.natAbs_neg]

theorem placeOfInt_lt_succ {k : Nat} (hk : k < 2 ^ 53) : placeOfInt k < placeOfInt (k + 1 : Nat) := by
  rw [placeOfInt_natCast, placeOfInt_natCast, min_eq_left (nearestRank_le_topRank hk.le),
    min_eq_left (nearestRank_le_topRank hk)]
  obtain ⟨e, he⟩ : ∃ e, unitsPerOne = 2 ^ e := ⟨1074, by decide +kernel⟩
  rw [he]
  exact Int.ofNat_lt.mpr (nearestRank_lt_succ hk)

/-- **Next to an integer of fifty-three digits** every other one has another double. -/
theorem placeOfInt_lt {m n : Int} (hmn : m < n) (hs : m.natAbs < 2 ^ 53 ∨ n.natAbs < 2 ^ 53) :
    placeOfInt m < placeOfInt n := by
  -- It is enough to go up by one from the integer on the left.
  have hleft {m n : Int} (hmn : m < n) (hs : m.natAbs < 2 ^ 53) : placeOfInt m < placeOfInt n := by
    refine lt_of_lt_of_le ?_ (placeOfInt_mono (show m + 1 ≤ n from hmn))
    rcases lt_or_ge m 0 with hm | hm
    · obtain ⟨k, rfl⟩ : ∃ k : Nat, m = -((k + 1 : Nat) : Int) := ⟨(-m - 1).toNat, by omega⟩
      rw [show -((k + 1 : Nat) : Int) + 1 = -(k : Int) by omega, placeOfInt_neg, placeOfInt_neg]
      exact neg_lt_neg (placeOfInt_lt_succ (by omega))
    · obtain ⟨k, rfl⟩ := Int.eq_ofNat_of_zero_le hm
      exact placeOfInt_lt_succ (by omega)
  rcases hs with hs | hs
  · exact hleft hmn hs
  · have := hleft (neg_lt_neg hmn) (by rwa [Int.natAbs_neg])
    rwa [placeOfInt_neg, placeOfInt_neg, neg_lt_neg_iff] at this

end Double

end ScriptCore
