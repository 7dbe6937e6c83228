import ScriptCore.Number.Decimal
import ScriptCore.Proofs.Number.Nearest

/-!
# Decimals as numbers

A decimal stands for a rational number (`Decimal.value`). Reading one as a double is rounding that
number to the nearest double and no more: however the number is written, and however far out it lies,
the same double is read (`Decimal.nearest_eq`).

The reader works out no power of ten that is far outside the range of doubles. Past the upper end
everything is infinity (`topRank_le_nearestRank`). Below the lower end the number is less than half the
least double, since each binary digit of the coefficient is outweighed by a decimal one of the power
(`two_mul_lt_of_exponent_lt`).
-/

namespace ScriptCore

namespace Decimal

variable {d : Decimal} {n w num den : Nat}

def value (d : Decimal) : ℚ := d.coefficient * (10 : ℚ) ^ d.exponent

theorem value_of_exponent_eq (he : d.exponent = n) : d.value = (d.coefficient * 10 ^ n : Nat) := by
  rw [value, he, zpow_natCast]
  push_cast
  rfl

theorem value_mul_of_exponent_eq_neg (he : d.exponent = -(w : Int)) :
    d.value * (10 ^ w : Nat) = d.coefficient := by
  have hpow : ((10 : ℚ) ^ w) ≠ 0 := pow_ne_zero w (by norm_num)
  rw [value, he, zpow_neg, zpow_natCast]
  push_cast
  rw [mul_assoc, inv_mul_cancel₀ hpow, mul_one]

theorem value_eq_of_mul_pow {e : Decimal} {z : Nat} (he : e.exponent = -(n : Int))
    (hd : d.exponent = -((n + z : Nat) : Int))
    (hc : e.coefficient * 10 ^ z = d.coefficient) : e.value = d.value := by
  have hpow : ((10 ^ (n + z) : Nat) : ℚ) ≠ 0 :=
    Nat.cast_ne_zero.mpr (Nat.pow_pos (by decide)).ne'
  apply mul_right_cancel₀ hpow
  calc e.value * (10 ^ (n + z) : Nat) = e.value * (10 ^ n : Nat) * (10 ^ z : Nat) := by
        rw [Nat.pow_add, Nat.cast_mul, mul_assoc]
    _ = (e.coefficient * 10 ^ z : Nat) := by
        rw [value_mul_of_exponent_eq_neg he, Nat.cast_mul]
    _ = d.value * (10 ^ (n + z) : Nat) := by rw [hc, value_mul_of_exponent_eq_neg hd]

def farPower : Nat := 10 ^ 200 * 10 ^ 200

theorem farPower_le (hn : 400 ≤ n) : farPower ≤ 10 ^ n := by
  obtain ⟨k, rfl⟩ : ∃ k, n = 200 + (200 + k) := ⟨n - 400, by omega⟩
  rw [Nat.pow_add, Nat.pow_add, ← Nat.mul_assoc]
  exact Nat.le_mul_of_pos_right _ (Nat.pow_pos (by decide))

/-! ## Fractions of units -/

/-- A fraction of units that stands for the same number as a decimal. -/
structure InUnits (d : Decimal) (num den : Nat) : Prop where
  pos : 0 < den
  eq : (num : ℚ) / den = d.value * Double.unitsPerOne

theorem InUnits.congr {e : Decimal} (hu : d.InUnits num den) (he : e.value = d.value) :
    e.InUnits num den := ⟨hu.pos, hu.eq.trans (by rw [he])⟩

variable (hu : d.InUnits num den)

include hu

theorem InUnits.cast_eq : (num : ℚ) = d.value * Double.unitsPerOne * den := by
  have hden : (den : ℚ) ≠ 0 := Nat.cast_ne_zero.mpr hu.pos.ne'
  rw [← hu.eq, div_mul_cancel₀ _ hden]

theorem InUnits.num_eq (he : d.exponent = n) :
    num = d.coefficient * 10 ^ n * Double.unitsPerOne * den := by
  have hnum := hu.cast_eq
  rw [value_of_exponent_eq he] at hnum
  exact_mod_cast hnum

theorem InUnits.num_mul_eq (he : d.exponent = -(w : Int)) :
    num * 10 ^ w = d.coefficient * Double.unitsPerOne * den := by
  have hnum : (num : ℚ) * (10 ^ w : Nat) = d.coefficient * Double.unitsPerOne * den := by
    rw [hu.cast_eq, ← value_mul_of_exponent_eq_neg he]
    ring
  exact_mod_cast hnum

/-! ## Far out -/

theorem topRank_le_nearestRank (hc : d.coefficient ≠ 0) (he : 400 < d.exponent) :
    topRank ≤ Double.nearestRank num den := by
  obtain ⟨n, hn⟩ : ∃ n : Nat, d.exponent = n := ⟨d.exponent.toNat, by omega⟩
  have hle : farPower ≤ d.coefficient * 10 ^ n :=
    (farPower_le (by omega)).trans (Nat.le_mul_of_pos_left _ (Nat.pos_of_ne_zero hc))
  calc topRank ≤ Double.nearestRank (farPower * Double.unitsPerOne) 1 := by decide +kernel
    _ = Double.nearestRank (farPower * Double.unitsPerOne * den) den :=
        Double.nearestRank_congr Nat.one_pos hu.pos (Nat.mul_one _).symm
    _ ≤ Double.nearestRank num den := by
        rw [hu.num_eq hn]
        exact Double.nearestRank_mono (Nat.mul_le_mul_right _ (Nat.mul_le_mul_right _ hle))

/-- Below the lower end of the range there is less than half a unit. -/
theorem two_mul_lt_of_exponent_lt (he : d.exponent < -(400 + d.coefficient.log2 : Int)) :
    2 * num < den := by
  obtain ⟨w, hw⟩ : ∃ w : Nat, d.exponent = -(w : Int) := ⟨(-d.exponent).toNat, by omega⟩
  have hsmall : 4 * Double.unitsPerOne < farPower := by decide +kernel
  have hlt : 2 * (d.coefficient * Double.unitsPerOne) < 10 ^ w := by
    calc 2 * (d.coefficient * Double.unitsPerOne)
        ≤ 2 * (2 ^ (d.coefficient.log2 + 1) * Double.unitsPerOne) :=
          Nat.mul_le_mul_left _ (Nat.mul_le_mul_right _ Nat.lt_log2_self.le)
      _ = 2 ^ d.coefficient.log2 * (4 * Double.unitsPerOne) := by
          rw [Nat.pow_succ]
          ring
      _ < 2 ^ d.coefficient.log2 * farPower := Nat.mul_lt_mul_of_pos_left hsmall (Nat.two_pow_pos _)
      _ ≤ 10 ^ d.coefficient.log2 * 10 ^ (w - d.coefficient.log2) :=
          Nat.mul_le_mul (Nat.pow_le_pow_left (by decide) _) (farPower_le (by omega))
      _ = 10 ^ w := by rw [← Nat.pow_add, Nat.add_sub_cancel' (by omega)]
  refine Nat.lt_of_mul_lt_mul_right (a := 10 ^ w) ?_
  calc 2 * num * 10 ^ w = 2 * (d.coefficient * Double.unitsPerOne) * den := by
        rw [Nat.mul_assoc, hu.num_mul_eq hw]
        ring
    _ < 10 ^ w * den := Nat.mul_lt_mul_of_pos_right hlt hu.pos
    _ = den * 10 ^ w := Nat.mul_comm ..

/-! ## Reading -/

theorem nearestRank_of_exponent_eq (hc : d.coefficient ≠ 0) (he : d.exponent = n) (hn : n ≤ 400) :
    d.nearestRank = Double.nearestRank num den := by
  rw [nearestRank, if_neg hc, he, if_pos (by omega), if_neg (by omega), Int.toNat_natCast]
  apply Double.nearestRank_congr Nat.one_pos hu.pos
  rw [hu.num_eq he, Nat.mul_one]
  rfl

theorem nearestRank_of_exponent_eq_neg (hc : d.coefficient ≠ 0) (he : d.exponent = -(w : Int))
    (hw : 0 < w) (hle : w ≤ 400 + d.coefficient.log2) :
    d.nearestRank = Double.nearestRank num den := by
  rw [nearestRank, if_neg hc, he, if_neg (by omega), if_neg (by omega), Int.neg_neg,
    Int.toNat_natCast]
  apply Double.nearestRank_congr (Nat.pow_pos (by decide)) hu.pos
  exact (hu.num_mul_eq he).symm

/-- **Reading rounds the number**: whatever fraction of units stands for it is rounded to the same
double. -/
theorem nearest_eq (negative : Bool) : d.nearest negative = Double.nearest negative num den := by
  have hclamp : Double.clampRank d.nearestRank = Double.clampRank (Double.nearestRank num den) := by
    by_cases hc : d.coefficient = 0
    · have hnum : num = 0 := by
        have hcast := hu.cast_eq
        rw [value, hc, Nat.cast_zero, zero_mul, zero_mul, zero_mul] at hcast
        exact_mod_cast hcast
      rw [nearestRank, if_pos hc, hnum, Double.nearestRank_of_lt hu.pos]
    · rcases Int.eq_nat_or_neg d.exponent with ⟨n, he | he⟩
      · by_cases hfar : n ≤ 400
        · rw [nearestRank_of_exponent_eq hu hc he hfar]
        · rw [nearestRank, if_neg hc, if_pos (by omega), if_pos (by omega)]
          exact (Double.clampRank_of_ge (topRank_le_nearestRank hu hc (by omega))).symm
      · by_cases hfar : n ≤ 400 + d.coefficient.log2
        · rcases Nat.eq_zero_or_pos n with rfl | hpos
          · rw [nearestRank_of_exponent_eq hu hc he (Nat.zero_le _)]
          · rw [nearestRank_of_exponent_eq_neg hu hc he hpos hfar]
        · rw [nearestRank, if_neg hc, if_neg (by omega), if_pos (by omega),
            Double.nearestRank_of_lt (two_mul_lt_of_exponent_lt hu (by omega))]
  rw [nearest, hclamp]
  rfl

end Decimal

end ScriptCore
