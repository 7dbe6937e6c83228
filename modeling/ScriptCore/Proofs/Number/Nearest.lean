import ScriptCore.Proofs.Number.Rounding

/-!
# Rounding to the nearest

On the grid of `2 ^ d` units the doubles are the multiples that need fifty-three binary digits, and all
fifty-three of them unless `d` is zero. A rank is a place on such a grid (`Double.exists_step`), and its
magnitude is read off there (`unitsOfRank_step`). So magnitudes rise with their ranks, and a magnitude
that is a double is rounded to itself (`nearestRank_unitsOfRank`).

From this it follows that `nearestRank` deserves its name. A fraction lies between two neighbours on its
own grid, every other rank is beyond one of these, and of the two the nearer one is taken, and the even
one of two that are equally near. `Double.isNearest_ofInt` says this of the doubles that stand for
64-bit integers.
-/

namespace ScriptCore

namespace Double

variable {c d k num num' den den' rank : Nat}

theorem blockSize_pos : 0 < blockSize := by decide

theorem blockSize_eq : blockSize = 2 ^ 52 := rfl

/-! ## Ranks on a grid -/

/-- What a place on a grid stands for. The place past the last one is the first of the next grid. -/
theorem unitsOfRank_step (hk : k ≤ 2 * blockSize) (hd : d = 0 ∨ blockSize ≤ k) :
    unitsOfRank (d * blockSize + k) = k * 2 ^ d := by
  have hdiv : (d * blockSize + k) / blockSize = d + k / blockSize := by
    rw [Nat.add_comm, Nat.add_mul_div_right _ _ blockSize_pos, Nat.add_comm]
  have hmod : (d * blockSize + k) % blockSize = k % blockSize := by
    rw [Nat.add_comm, Nat.add_mul_mod_self_right]
  rw [unitsOfRank, hdiv, hmod]
  by_cases hlow : k < blockSize
  · obtain rfl : d = 0 := hd.resolve_right (by omega)
    simp [Nat.div_eq_of_lt hlow]
  · by_cases htop : k = 2 * blockSize
    · rw [htop, Nat.mul_div_cancel _ blockSize_pos, Nat.mul_mod_left, if_neg (by omega)]
      show (blockSize + 0) * 2 ^ (d + 1) = 2 * blockSize * 2 ^ d
      ring
    · have hone : k / blockSize = 1 := Nat.div_eq_of_lt_le (by omega) (by omega)
      have hrest : k % blockSize = k - blockSize := by
        rw [Nat.mod_eq_sub_mul_div, hone, Nat.mul_one]
      rw [hone, hrest, if_neg (by omega)]
      show (blockSize + (k - blockSize)) * 2 ^ d = k * 2 ^ d
      rw [Nat.add_sub_cancel' (by omega)]

/-- **Every rank is a place on a grid.** -/
theorem exists_step (rank : Nat) :
    ∃ d k, rank = d * blockSize + k ∧ k < 2 * blockSize ∧ (d = 0 ∨ blockSize ≤ k) := by
  have hpos := blockSize_pos
  have hrank := Nat.div_add_mod rank blockSize
  have hmod := Nat.mod_lt rank hpos
  by_cases hz : rank / blockSize = 0
  · refine ⟨0, rank, by omega, ?_, Or.inl rfl⟩
    rw [hz] at hrank
    omega
  · obtain ⟨d, hd⟩ := Nat.exists_eq_succ_of_ne_zero hz
    refine ⟨d, blockSize + rank % blockSize, ?_, by omega, Or.inr (by omega)⟩
    rw [hd, Nat.mul_succ, Nat.mul_comm] at hrank
    omega

/-- **Magnitudes rise with their ranks.** -/
theorem unitsOfRank_strictMono : StrictMono unitsOfRank := by
  apply strictMono_nat_of_lt_succ
  intro rank
  obtain ⟨d, k, rfl, hk, hd⟩ := exists_step rank
  rw [unitsOfRank_step hk.le hd, Nat.add_assoc, unitsOfRank_step hk (hd.imp_right (by omega))]
  exact Nat.mul_lt_mul_of_pos_right (Nat.lt_succ_self k) (Nat.two_pow_pos d)

theorem droppedDigits_step (hden : 0 < den) (hk : k < 2 * blockSize) (hd : d = 0 ∨ blockSize ≤ k) :
    droppedDigits (k * 2 ^ d * den) den = d := by
  rw [droppedDigits, Nat.mul_div_cancel _ hden]
  rcases Nat.eq_zero_or_pos k with rfl | hpos
  · obtain rfl : d = 0 := hd.resolve_right (Nat.not_le.mpr blockSize_pos)
    rfl
  · have hne : k * 2 ^ d ≠ 0 := (Nat.mul_pos hpos (Nat.two_pow_pos d)).ne'
    have hlt : (k * 2 ^ d).log2 < 53 + d := by
      rw [Nat.log2_lt hne, Nat.pow_add]
      exact Nat.mul_lt_mul_of_pos_right hk (Nat.two_pow_pos d)
    rcases hd with rfl | hd
    · omega
    · have hge : 52 + d ≤ (k * 2 ^ d).log2 := by
        rw [Nat.le_log2 hne, Nat.pow_add]
        exact Nat.mul_le_mul_right _ hd
      omega

/-- **A double is rounded to itself.** -/
theorem nearestRank_unitsOfRank (hden : 0 < den) (rank : Nat) :
    nearestRank (unitsOfRank rank * den) den = rank := by
  obtain ⟨d, k, rfl, hk, hd⟩ := exists_step rank
  have hdrop := droppedDigits_step hden hk hd
  have hm : k * 2 ^ d * den = k * (den * 2 ^ d) := by ring
  rw [unitsOfRank_step hk.le hd, nearestRank_of_dvd hden, hdrop, hm,
    Nat.mul_div_cancel _ (Nat.mul_pos hden (Nat.two_pow_pos d))]
  rw [hdrop, hm]
  exact Nat.dvd_mul_left ..

/-! ## Fractions -/

theorem nearestOnGrid_mul_right (hc : 0 < c) (step num : Nat) :
    nearestOnGrid (step * c) (num * c) = nearestOnGrid step num := by
  have hrest : 2 * (num % step * c) = 2 * (num % step) * c := by ring
  rw [nearestOnGrid, nearestOnGrid, Nat.mul_div_mul_right _ _ hc, Nat.mul_mod_mul_right, hrest]
  simp only [Nat.mul_lt_mul_right hc, Nat.mul_left_inj hc.ne']

theorem nearestRank_mul_right (hc : 0 < c) (num den : Nat) :
    nearestRank (num * c) (den * c) = nearestRank num den := by
  have hdrop : droppedDigits (num * c) (den * c) = droppedDigits num den := by
    rw [droppedDigits, droppedDigits, Nat.mul_div_mul_right _ _ hc]
  have hstep : den * c * 2 ^ droppedDigits num den = den * 2 ^ droppedDigits num den * c := by ring
  rw [nearestRank_eq, nearestRank_eq, hdrop, hstep, nearestOnGrid_mul_right hc]

/-- **Equal fractions** are rounded alike, however they are written. -/
theorem nearestRank_congr (hden : 0 < den) (hden' : 0 < den') (heq : num * den' = num' * den) :
    nearestRank num den = nearestRank num' den' := by
  rw [← nearestRank_mul_right hden', heq, Nat.mul_comm den, nearestRank_mul_right hden]

theorem nearestRank_of_lt (hlt : 2 * num < den) : nearestRank num den = 0 := by
  have hdiv : num / den = 0 := Nat.div_eq_of_lt (by omega)
  have hdrop : droppedDigits num den = 0 := by
    rw [droppedDigits, hdiv]
    rfl
  have hmod : num % den = num := Nat.mod_eq_of_lt (by omega)
  rw [nearestRank_eq, hdrop, Nat.pow_zero, Nat.mul_one, nearestOnGrid, hdiv, hmod, if_neg (by omega)]
  omega

/-! ## Nearest -/

def distance (num den rank : Nat) : Nat := ((unitsOfRank rank * den : Int) - num).natAbs

/-- The two neighbours of a fraction on its grid, in parts of a unit. -/
theorem exists_neighbours (hden : 0 < den) (num : Nat) :
    ∃ lower kept step rest, num = kept * step + rest ∧ rest < step ∧ lower % 2 = kept % 2 ∧
      unitsOfRank lower * den = kept * step ∧ unitsOfRank (lower + 1) * den = (kept + 1) * step ∧
      nearestRank num den =
        lower + if step < 2 * rest ∨ (2 * rest = step ∧ kept % 2 = 1) then 1 else 0 := by
  have hpos : 0 < den * 2 ^ droppedDigits num den := Nat.mul_pos hden (Nat.two_pow_pos _)
  have hk := kept_lt num den
  have hd : droppedDigits num den = 0 ∨
      blockSize ≤ num / (den * 2 ^ droppedDigits num den) :=
    (Nat.eq_zero_or_pos _).imp_right blockSize_le_kept
  refine ⟨droppedDigits num den * blockSize + num / (den * 2 ^ droppedDigits num den),
    num / (den * 2 ^ droppedDigits num den), den * 2 ^ droppedDigits num den,
    num % (den * 2 ^ droppedDigits num den), (Nat.div_add_mod' ..).symm, Nat.mod_lt _ hpos, ?_, ?_, ?_,
    ?_⟩
  · have heven : droppedDigits num den * blockSize % 2 = 0 := by
      rw [blockSize_eq, Nat.mul_mod]
      norm_num
    omega
  · rw [unitsOfRank_step hk.le hd]
    ring
  · rw [Nat.add_assoc, unitsOfRank_step hk (hd.imp_right (by omega)), Nat.mul_assoc,
      Nat.mul_comm (2 ^ _)]
  · rw [nearestRank_eq, nearestOnGrid, Nat.add_assoc]

/-- **The nearest rank**: no rank is nearer, and if another one is as near then the nearest is even. -/
theorem distance_nearestRank_le (hden : 0 < den) (num rank : Nat) :
    distance num den (nearestRank num den) ≤ distance num den rank ∧
    (distance num den rank = distance num den (nearestRank num den) →
      rank = nearestRank num den ∨ nearestRank num den % 2 = 0) := by
  obtain ⟨lower, kept, step, rest, hnum, hrest, hparity, hlower, hupper, hnear⟩ :=
    exists_neighbours hden num
  rw [Nat.succ_mul] at hupper
  -- Every rank is one of the two neighbours, or lies beyond one of them.
  have hcases : unitsOfRank rank * den < kept * step ∨ rank = lower ∨ rank = lower + 1 ∨
      kept * step + step < unitsOfRank rank * den := by
    rcases lt_trichotomy rank lower with hlt | rfl | hgt
    · exact Or.inl (hlower ▸ Nat.mul_lt_mul_of_pos_right (unitsOfRank_strictMono hlt) hden)
    · exact Or.inr (Or.inl rfl)
    · rcases Nat.lt_or_eq_of_le (Nat.succ_le_of_lt hgt) with hlt | rfl
      · exact Or.inr (Or.inr (Or.inr
          (hupper ▸ Nat.mul_lt_mul_of_pos_right (unitsOfRank_strictMono hlt) hden)))
      · exact Or.inr (Or.inr (Or.inl rfl))
  have hlow : distance num den lower = rest := by
    unfold distance
    have : (unitsOfRank lower * den : Int) = (kept * step : Nat) := by exact_mod_cast hlower
    omega
  have hup : distance num den (lower + 1) = step - rest := by
    unfold distance
    have : (unitsOfRank (lower + 1) * den : Int) = (kept * step + step : Nat) := by
      exact_mod_cast hupper
    omega
  have hfar : (unitsOfRank rank * den < kept * step → rest < distance num den rank) ∧
      (kept * step + step < unitsOfRank rank * den → step - rest < distance num den rank) := by
    unfold distance
    have : (unitsOfRank rank * den : Int) = (unitsOfRank rank * den : Nat) := by push_cast; rfl
    omega
  rw [hnear]
  split_ifs with hif
  · rw [hup]
    rcases hcases with hlt | rfl | rfl | hgt <;> omega
  · rw [Nat.add_zero, hlow]
    rcases hcases with hlt | rfl | rfl | hgt <;> omega

/-! ## Doubles nearest to integers -/

/-- A double is **nearest** to an integer if it is finite and no finite double is nearer. If another one
is as near, its last bit is zero. -/
structure IsNearest (x : Double) (n : Int) : Prop where
  finite : x.isFinite = true
  le : ∀ y : Double, y.isFinite = true →
    (x.units - n * unitsPerOne).natAbs ≤ (y.units - n * unitsPerOne).natAbs
  even : ∀ y : Double, y.isFinite = true →
    (y.units - n * unitsPerOne).natAbs = (x.units - n * unitsPerOne).natAbs →
      y.units = x.units ∨ x.toBits % 2 = 0

def signed (n : Int) (units : Nat) : Int := if n < 0 then -(units : Int) else units

theorem signed_natAbs_mul (n : Int) (k : Nat) : signed n (n.natAbs * k) = n * k := by
  unfold signed
  rw [Nat.cast_mul]
  split_ifs with hn
  · rw [show (n.natAbs : Int) = -n by omega]
    ring
  · rw [show (n.natAbs : Int) = n by omega]

theorem natAbs_signed_sub (n : Int) (rank : Nat) :
    (signed n (unitsOfRank rank) - n * unitsPerOne).natAbs =
      distance (n.natAbs * unitsPerOne) 1 rank := by
  rw [← signed_natAbs_mul, distance, Nat.cast_one, mul_one]
  unfold signed
  split_ifs <;> omega

theorem exists_units (n : Int) (y : Double) :
    ∃ rank, y.units = signed n (unitsOfRank rank) ∨ y.units = -signed n (unitsOfRank rank) := by
  unfold signed
  cases y with
  | nan => exact ⟨0, Or.inl (by split_ifs <;> rfl)⟩
  | ranked negative rank =>
    refine ⟨rank, ?_⟩
    cases negative
    · show (unitsOfRank rank : Int) = _ ∨ (unitsOfRank rank : Int) = _
      split_ifs <;> simp
    · show -(unitsOfRank rank : Int) = _ ∨ -(unitsOfRank rank : Int) = _
      split_ifs <;> simp

theorem exists_distance_le (n : Int) (y : Double) : ∃ rank,
    distance (n.natAbs * unitsPerOne) 1 rank ≤ (y.units - n * unitsPerOne).natAbs ∧
    ((y.units - n * unitsPerOne).natAbs = distance (n.natAbs * unitsPerOne) 1 rank →
      y.units = signed n (unitsOfRank rank)) := by
  obtain ⟨rank, hy | hy⟩ := exists_units n y
  · refine ⟨rank, ?_, ?_⟩
    · rw [hy, natAbs_signed_sub]
    · intro _
      exact hy
  · -- On the other side of zero, zero itself is nearer.
    have hzero : unitsOfRank 0 = 0 := rfl
    refine ⟨0, ?_⟩
    rw [← natAbs_signed_sub, ← signed_natAbs_mul, hy, hzero]
    unfold signed
    split_ifs <;> omega

theorem nearestRank_lt_topRank {n : Int} (hn : n.natAbs ≤ 2 ^ 63) :
    nearestRank (n.natAbs * unitsPerOne) 1 < topRank :=
  (nearestRank_mono (Nat.mul_le_mul_right unitsPerOne hn)).trans_lt (by decide +kernel)

theorem clampRank_of_le (hr : rank ≤ topRank) : (clampRank rank).val = rank := min_eq_left hr

theorem clampRank_of_ge (hr : topRank ≤ rank) : clampRank rank = clampRank topRank := by
  apply Fin.ext
  show min rank topRank = min topRank topRank
  rw [min_eq_right hr, min_self]

theorem units_ofInt {n : Int} (hn : n.natAbs ≤ 2 ^ 63) :
    (ofInt n).units = signed n (unitsOfRank (nearestRank (n.natAbs * unitsPerOne) 1)) := by
  rw [ofInt, nearest, units, clampRank_of_le (nearestRank_lt_topRank hn).le, signed]
  simp only [decide_eq_true_eq]

/-- **The double that stands for an integer** is the nearest one. -/
theorem isNearest_ofInt {n : Int} (hn : n.natAbs ≤ 2 ^ 63) : (ofInt n).IsNearest n := by
  have hlt := nearestRank_lt_topRank hn
  have hself : ((ofInt n).units - n * unitsPerOne).natAbs =
      distance (n.natAbs * unitsPerOne) 1 (nearestRank (n.natAbs * unitsPerOne) 1) := by
    rw [units_ofInt hn, natAbs_signed_sub]
  refine ⟨?_, ?_, ?_⟩
  · rw [ofInt, nearest, isFinite, clampRank_of_le hlt.le]
    rw [decide_eq_true_eq]
    exact hlt
  · intro y _
    obtain ⟨rank, hle, -⟩ := exists_distance_le n y
    rw [hself]
    exact (distance_nearestRank_le Nat.one_pos _ rank).1.trans hle
  · intro y _ heq
    obtain ⟨rank, hle, hunits⟩ := exists_distance_le n y
    obtain ⟨hmin, htie⟩ := distance_nearestRank_le Nat.one_pos (n.natAbs * unitsPerOne) rank
    rw [heq, hself] at hle hunits
    have htied := Nat.le_antisymm hle hmin
    rcases htie htied with hrank | heven
    · left
      rw [hunits htied.symm, hrank, units_ofInt hn]
    · right
      have hsign : signBit % 2 = 0 := by decide
      rw [ofInt, nearest, toBits, clampRank_of_le hlt.le]
      split <;> omega

end Double

end ScriptCore
