import ScriptCore.Proofs.Number.Decimals
import ScriptCore.Proofs.Number.Grammar

/-!
# Numbers written out and read back

The text of a number is read back as that number. For a double this is the text without an exponent of
its shortest decimal: the digits are those of a decimal that rounds to the double
(`Double.nearest_shortestOfRank`), and written out without an exponent, as a whole part and a fraction
without zeros at its end, they still stand for the same number (`Numeral.exists_decimal?_chars`). So the
double is read, blanks around the text apart, but for the sign of zero, which is not written
(`Numeral.ofText_text`). An integer is read as the double nearest to it (`Numeral.ofText_integer`).
-/

namespace ScriptCore

/-! ## Blanks -/

namespace Text

variable {before core after : List Char}

theorem dropWhile_blanks_append (hb : ∀ c ∈ before, isBlank c = true)
    (hc : ∀ c ∈ core, isBlank c = false) (hne : core ≠ []) :
    (before ++ (core ++ after)).dropWhile isBlank = core ++ after := by
  rw [List.dropWhile_append_of_pos hb]
  cases core with
  | nil => exact absurd rfl hne
  | cons c core =>
    rw [List.cons_append, List.dropWhile_cons_of_neg]
    simp [hc c List.mem_cons_self]

/-- **Blanks around a text** are trimmed, and nothing else is. -/
theorem trim_append (hb : ∀ c ∈ before, isBlank c = true) (ha : ∀ c ∈ after, isBlank c = true)
    (hc : ∀ c ∈ core, isBlank c = false) (hne : core ≠ []) : trim (before ++ core ++ after) = core := by
  have hback : (after.reverse ++ (core.reverse ++ [])).dropWhile isBlank = core.reverse ++ [] := by
    apply dropWhile_blanks_append
    · intro c hm
      exact ha c (List.mem_reverse.mp hm)
    · intro c hm
      exact hc c (List.mem_reverse.mp hm)
    · simpa using hne
  rw [trim, List.append_assoc, dropWhile_blanks_append hb hc hne, List.reverse_append,
    ← List.append_nil core.reverse, hback, List.append_nil, List.reverse_reverse]

theorem isBlank_of_isDigit {c : Char} (hc : c.isDigit = true) : isBlank c = false := by
  simp only [Char.isDigit, Bool.and_eq_true, decide_eq_true_eq] at hc
  have hl : 48 ≤ c.toNat := UInt32.le_iff_toNat_le.mp hc.1
  have hg : c.toNat ≤ 57 := UInt32.le_iff_toNat_le.mp hc.2
  simp [isBlank]
  omega

end Text

/-! ## Decimals written out -/

namespace Decimal

theorem isDigit_of_mem_paddedDigits {width n : Nat} {c : Char} (hc : c ∈ paddedDigits width n) :
    c.isDigit = true := by
  rcases List.mem_append.mp hc with hc | hc
  · obtain rfl := List.eq_of_mem_replicate hc
    decide
  · exact Nat.isDigit_of_mem_toDigits (by decide) (by decide) hc

theorem length_paddedDigits {width n : Nat} (hw : 0 < width) (hn : n < 10 ^ width) :
    (paddedDigits width n).length = width := by
  have hle : (Nat.toDigits 10 n).length ≤ width :=
    (Nat.length_toDigits_le_iff (by decide) hw).mpr hn
  rw [paddedDigits, List.length_append, List.length_replicate]
  omega

theorem ofDigitChars_paddedDigits (width n : Nat) :
    Nat.ofDigitChars 10 (paddedDigits width n) 0 = n := by
  rw [paddedDigits, Nat.ofDigitChars_append, Nat.ofDigitChars_replicate_zero, Nat.mul_zero,
    Nat.ofDigitChars_ten_toDigits]

theorem exists_zeros (width n : Nat) :
    ∃ zeros, paddedDigits width n = fractionDigits width n ++ List.replicate zeros '0' := by
  let zeros := (paddedDigits width n).reverse.takeWhile (· == '0')
  have hzeros : zeros = List.replicate zeros.length '0' := by
    apply List.eq_replicate_of_mem
    intro c hc
    simpa using List.mem_takeWhile_imp hc
  refine ⟨zeros.length, ?_⟩
  rw [← List.reverse_inj, List.reverse_append, List.reverse_replicate, ← hzeros, fractionDigits,
    List.reverse_reverse]
  exact List.takeWhile_append_dropWhile.symm

theorem isDigit_of_mem_fractionDigits {width n : Nat} {c : Char} (hc : c ∈ fractionDigits width n) :
    c.isDigit = true := by
  obtain ⟨zeros, hz⟩ := exists_zeros width n
  have hmem : c ∈ paddedDigits width n := by
    rw [hz]
    exact List.mem_append_left _ hc
  exact isDigit_of_mem_paddedDigits hmem

/-- **A fraction** of so many digits, with zeros for those left off. -/
theorem ofDigitChars_fractionDigits {width n : Nat} (hw : 0 < width) (hn : n < 10 ^ width) :
    ∃ zeros, width = (fractionDigits width n).length + zeros ∧
      Nat.ofDigitChars 10 (fractionDigits width n) 0 * 10 ^ zeros = n := by
  obtain ⟨zeros, hz⟩ := exists_zeros width n
  refine ⟨zeros, ?_, ?_⟩
  · have hlength := length_paddedDigits hw hn
    rw [hz, List.length_append, List.length_replicate] at hlength
    exact hlength.symm
  · have hval := ofDigitChars_paddedDigits width n
    rw [hz, Nat.ofDigitChars_append, Nat.ofDigitChars_replicate_zero, Nat.mul_comm] at hval
    exact hval

theorem chars_of_exponent_eq_neg {d : Decimal} {w : Nat} (hw : 0 < w)
    (he : d.exponent = -(w : Int)) :
    (fractionDigits w (d.coefficient % 10 ^ w) = [] ∧
      d.chars = Nat.toDigits 10 (d.coefficient / 10 ^ w)) ∨
    (fractionDigits w (d.coefficient % 10 ^ w) ≠ [] ∧
      d.chars = Nat.toDigits 10 (d.coefficient / 10 ^ w) ++
        '.' :: fractionDigits w (d.coefficient % 10 ^ w)) := by
  have hneg : ¬0 ≤ d.exponent := by omega
  have hwidth : (-d.exponent).toNat = w := by omega
  have hunit : Nat.pow 10 w = 10 ^ w := rfl
  cases hf : fractionDigits w (d.coefficient % 10 ^ w) with
  | nil =>
    refine Or.inl ⟨rfl, ?_⟩
    simp only [chars, if_neg hneg, hwidth, hunit, hf]
  | cons c cs =>
    refine Or.inr ⟨List.cons_ne_nil c cs, ?_⟩
    simp only [chars, if_neg hneg, hwidth, hunit, hf]

end Decimal

namespace Numeral

variable {cs whole fraction : List Char} {d : Decimal}

theorem decimal?_of_digits (hd : Digits cs) : decimal? cs = some ⟨Nat.ofDigitChars 10 cs 0, 0⟩ := by
  have hspan : spanDigits cs = (cs, []) := by
    rw [← List.append_nil cs]
    apply (spanDigits_append hd.2 _).trans
    · rw [List.append_nil]
    · intro c hc
      cases hc
  rw [decimal?, hspan]
  simp [hd.1, exponent?]

theorem decimal?_of_point (hd : Digits (whole ++ fraction)) : decimal? (whole ++ '.' :: fraction) =
    some ⟨Nat.ofDigitChars 10 (whole ++ fraction) 0, -(fraction.length : Int)⟩ := by
  have hwhole : spanDigits (whole ++ '.' :: fraction) = (whole, '.' :: fraction) := by
    apply spanDigits_append
    · intro c hc
      exact hd.2 c (List.mem_append_left _ hc)
    · intro c hc
      obtain rfl := Option.some.inj hc
      decide
  have hfraction : spanDigits fraction = (fraction, []) := by
    rw [← List.append_nil fraction]
    apply (spanDigits_append (fun c hc => hd.2 c (List.mem_append_right _ hc)) _).trans
    · rw [List.append_nil]
    · intro c hc
      cases hc
  rw [decimal?, hwhole]
  simp only [hfraction]
  rw [if_neg hd.1]
  simp [exponent?]

theorem digits_toDigits (n : Nat) : Digits (Nat.toDigits 10 n) :=
  ⟨Nat.toDigits_ne_nil, fun _ hc => Nat.isDigit_of_mem_toDigits (by decide) (by decide) hc⟩

theorem decimal?_toDigits (n : Nat) : decimal? (Nat.toDigits 10 n) = some ⟨n, 0⟩ := by
  rw [decimal?_of_digits (digits_toDigits n), Nat.ofDigitChars_ten_toDigits]

theorem exists_decimal?_of_exponent_eq {n : Nat} (he : d.exponent = n) :
    ∃ e, decimal? d.chars = some e ∧ e.value = d.value := by
  refine ⟨⟨d.coefficient * 10 ^ n, 0⟩, ?_, ?_⟩
  · rw [Decimal.chars, he, if_pos (by omega), Int.toNat_natCast]
    exact decimal?_toDigits _
  · rw [Decimal.value_of_exponent_eq he, Decimal.value_of_exponent_eq (n := 0) rfl]
    simp

theorem exists_decimal?_of_exponent_eq_neg {w : Nat} (hw : 0 < w) (he : d.exponent = -(w : Int)) :
    ∃ e, decimal? d.chars = some e ∧ e.value = d.value := by
  have hsplit := Nat.div_add_mod' d.coefficient (10 ^ w)
  obtain ⟨zeros, hzeros, hval⟩ := Decimal.ofDigitChars_fractionDigits hw
    (Nat.mod_lt d.coefficient (Nat.pow_pos (show 0 < 10 by decide)))
  rcases Decimal.chars_of_exponent_eq_neg hw he with ⟨hnone, hchars⟩ | ⟨hsome, hchars⟩
  · refine ⟨_, by rw [hchars, decimal?_toDigits], ?_⟩
    rw [hnone, Nat.ofDigitChars_nil, Nat.zero_mul] at hval
    rw [← hval, Nat.add_zero] at hsplit
    exact Decimal.value_eq_of_mul_pow (n := 0) rfl (by rw [he, Nat.zero_add]) hsplit
  · have hdigits : Digits (Nat.toDigits 10 (d.coefficient / 10 ^ w) ++
        Decimal.fractionDigits w (d.coefficient % 10 ^ w)) := by
      apply digits_append (digits_toDigits _).2
      · intro c hc
        exact Decimal.isDigit_of_mem_fractionDigits hc
      · simp [hsome]
    have hpow : 10 ^ w = 10 ^ (Decimal.fractionDigits w (d.coefficient % 10 ^ w)).length *
        10 ^ zeros := by rw [← Nat.pow_add, ← hzeros]
    refine ⟨_, by rw [hchars, decimal?_of_point hdigits], ?_⟩
    apply Decimal.value_eq_of_mul_pow rfl (by rw [he, ← hzeros])
    rw [Nat.ofDigitChars_append, Nat.ofDigitChars_ten_toDigits,
      Nat.ofDigitChars_eq_ofDigitChars_zero, Nat.add_mul, hval, Nat.mul_right_comm, ← hpow,
      Nat.mul_comm, hsplit]

/-- **A decimal written out** is read as a decimal that stands for the same number. -/
theorem exists_decimal?_chars (d : Decimal) :
    ∃ e, decimal? d.chars = some e ∧ e.value = d.value := by
  rcases Int.eq_nat_or_neg d.exponent with ⟨n, he | he⟩
  · exact exists_decimal?_of_exponent_eq he
  · rcases Nat.eq_zero_or_pos n with rfl | hn
    · exact exists_decimal?_of_exponent_eq he
    · exact exists_decimal?_of_exponent_eq_neg hn he

theorem isBlank_of_mem_chars {c : Char} (hc : c ∈ d.chars) : Text.isBlank c = false := by
  have hdigits (n : Nat) (hm : c ∈ Nat.toDigits 10 n) : Text.isBlank c = false :=
    Text.isBlank_of_isDigit ((digits_toDigits n).2 c hm)
  rcases Int.eq_nat_or_neg d.exponent with ⟨n, he | he⟩
  · rw [Decimal.chars, if_pos (by omega)] at hc
    exact hdigits _ hc
  · rcases Nat.eq_zero_or_pos n with rfl | hn
    · rw [Decimal.chars, if_pos (by omega)] at hc
      exact hdigits _ hc
    · rcases Decimal.chars_of_exponent_eq_neg hn he with ⟨-, hchars⟩ | ⟨-, hchars⟩
      · rw [hchars] at hc
        exact hdigits _ hc
      · rw [hchars] at hc
        rcases List.mem_append.mp hc with hm | hm
        · exact hdigits _ hm
        · rcases List.mem_cons.mp hm with rfl | hm
          · decide
          · exact Text.isBlank_of_isDigit (Decimal.isDigit_of_mem_fractionDigits hm)

/-! ## Reading decimals -/

def signChars (negative : Bool) : List Char := if negative then ['-'] else []

/-- What is read of an unsigned decimal, with a sign or without. -/
theorem read_signChars_append (negative : Bool) (hd : decimal? cs = some d) :
    read (signChars negative ++ cs) = d.nearest negative := by
  have hu : Unsigned cs := decimal?_isSome_iff.mp (by rw [hd]; rfl)
  have hinfinity : cs ≠ "Infinity".toList := by
    rintro rfl
    have hnone : decimal? "Infinity".toList = none := by decide
    rw [hnone] at hd
    cases hd
  have hspan : spanSign (signChars negative ++ cs) = (negative, cs) := by
    cases negative with
    | true => rfl
    | false =>
      cases cs with
      | nil => rfl
      | cons c rest =>
        rcases hu.head with hc | rfl
        · obtain ⟨hminus, hplus⟩ := ne_sign_of_isDigit hc
          show spanSign (c :: rest) = (false, c :: rest)
          unfold spanSign
          split
          · next h => exact absurd (List.cons.inj h).1 hminus
          · next h => exact absurd (List.cons.inj h).1 hplus
          · rfl
        · rfl
  have hne : signChars negative ++ cs ≠ [] := by
    cases negative with
    | true => exact List.cons_ne_nil _ _
    | false =>
      rintro rfl
      cases hd
  have hmark : ¬Marked (signChars negative ++ cs) := by
    cases negative with
    | true =>
      rintro ⟨mark, rest, h, -⟩
      exact absurd (List.cons.inj h).1 (by decide)
    | false => exact hu.not_marked
  rw [read_of_not_marked hne hmark, hspan, if_neg hinfinity, hd]
  rfl

end Numeral

/-! ## Doubles -/

namespace Double

theorem finePerUnit_pos : 0 < finePerUnit := by decide +kernel

theorem reads_of_readingNeighbour {reads : Nat → Bool} {fine step c : Nat}
    (hc : readingNeighbour reads fine step = some c) : reads c = true := by
  unfold readingNeighbour at hc
  dsimp only at hc
  split at hc
  · next hlower hupper =>
    obtain rfl := Option.some.inj hc
    split
    · exact hlower
    · exact hupper
  · next hlower _ => exact Option.some.inj hc ▸ hlower
  · next _ hupper => exact Option.some.inj hc ▸ hupper
  · cases hc

theorem exists_gridNeighbour {rank fine coarse : Nat} {d : Decimal}
    (hd : gridNeighbour rank fine coarse = some d) :
    ∃ c, d = ⟨c, (coarse : Int) - 1074⟩ ∧ nearestRank (c * 10 ^ coarse) finePerUnit = rank := by
  obtain ⟨c, hc, rfl⟩ := Option.map_eq_some_iff.mp hd
  have hreads := reads_of_readingNeighbour hc
  simp only [beq_iff_eq] at hreads
  exact ⟨c, rfl, hreads⟩

theorem exists_shortestOfRank (rank : Nat) : ∃ c coarse : Nat,
    shortestOfRank rank = ⟨c, (coarse : Int) - 1074⟩ ∧
      nearestRank (c * 10 ^ coarse) finePerUnit = rank := by
  unfold shortestOfRank
  dsimp only
  generalize hfound : List.findSome? id _ = found
  cases found with
  | some d =>
    obtain ⟨attempt, hm, hd⟩ := List.exists_of_findSome?_eq_some hfound
    obtain ⟨digits, -, hattempt⟩ := List.mem_map.mp hm
    obtain ⟨c, hc, hread⟩ := exists_gridNeighbour (hattempt.trans hd)
    exact ⟨c, _, hc, hread⟩
  | none =>
    refine ⟨fineDigits (unitsOfRank rank), 0, by simp, ?_⟩
    rw [Nat.pow_zero, Nat.mul_one]
    exact nearestRank_unitsOfRank finePerUnit_pos rank

theorem finePerUnit_mul_unitsPerOne :
    ∃ n : Nat, (n : Int) = 1074 ∧ finePerUnit * unitsPerOne = 10 ^ n :=
  ⟨1074, rfl, by decide +kernel⟩

theorem inUnits_of_grid (c coarse : Nat) {n : Nat} (hn : finePerUnit * unitsPerOne = 10 ^ n) :
    (⟨c, (coarse : Int) - n⟩ : Decimal).InUnits (c * 10 ^ coarse) finePerUnit := by
  have hfine : (finePerUnit : ℚ) ≠ 0 := Nat.cast_ne_zero.mpr finePerUnit_pos.ne'
  have hten : (10 : ℚ) ≠ 0 := by norm_num
  have hcast : (finePerUnit : ℚ) * unitsPerOne = 10 ^ n := by exact_mod_cast hn
  refine ⟨finePerUnit_pos, ?_⟩
  show ((c * 10 ^ coarse : Nat) : ℚ) / finePerUnit =
    c * (10 : ℚ) ^ ((coarse : Int) - n) * unitsPerOne
  rw [zpow_sub₀ hten, zpow_natCast, zpow_natCast, ← hcast, Nat.cast_mul, Nat.cast_pow]
  have hunits : (unitsPerOne : ℚ) ≠ 0 := by
    intro hz
    rw [hz, mul_zero] at hcast
    exact pow_ne_zero n hten hcast.symm
  generalize (unitsPerOne : ℚ) = units at *
  push_cast
  field_simp

/-- **The shortest decimal** of a double is read as that double, and so is every other decimal that
stands for the same number. -/
theorem nearest_shortestOfRank {e : Decimal} {rank : Fin (topRank + 1)} (negative : Bool)
    (he : e.value = (shortestOfRank rank).value) : e.nearest negative = .ranked negative rank := by
  obtain ⟨c, coarse, hd, hread⟩ := exists_shortestOfRank rank
  obtain ⟨n, hn, hten⟩ := finePerUnit_mul_unitsPerOne
  rw [hd, ← hn] at he
  rw [Decimal.nearest_eq ((inUnits_of_grid c coarse hten).congr he), nearest, hread]
  exact congrArg (ranked negative) (Fin.ext (clampRank_of_le (Nat.le_of_lt_succ rank.isLt)))

end Double

namespace Numeral

variable {d : Decimal} {before after : List Char}

theorem isBlank_of_mem_signChars_append {cs : List Char} {negative : Bool} {c : Char}
    (hcs : ∀ c ∈ cs, Text.isBlank c = false) (hc : c ∈ signChars negative ++ cs) :
    Text.isBlank c = false := by
  rcases List.mem_append.mp hc with hc | hc
  · cases negative with
    | true =>
      obtain rfl := List.mem_singleton.mp hc
      decide
    | false => cases hc
  · exact hcs c hc

theorem read_trim {cs : List Char} (negative : Bool) (hd : decimal? cs = some d)
    (hcs : ∀ c ∈ cs, Text.isBlank c = false) (hb : ∀ c ∈ before, Text.isBlank c = true)
    (ha : ∀ c ∈ after, Text.isBlank c = true) :
    read (Text.trim (before ++ (signChars negative ++ cs) ++ after)) = d.nearest negative := by
  have hne : signChars negative ++ cs ≠ [] := by
    intro h
    obtain ⟨-, rfl⟩ := List.append_eq_nil_iff.mp h
    cases hd
  rw [Text.trim_append hb ha (fun c hc => isBlank_of_mem_signChars_append hcs hc) hne,
    read_signChars_append negative hd]

theorem toList_sign (negative : Bool) :
    (if negative then "-" else "").toList = signChars negative := by
  cases negative <;> rfl

theorem ofText_infinity (negative : Bool) :
    ofText ((if negative then "-" else "") ++ "Infinity") = .infinity negative := by
  cases negative <;> decide +kernel

/-- **A double is read from its text**, but for the sign of zero, which has none. -/
theorem ofText_text (x : Double) : ofText x.text = if x.isZero then .zero false else x := by
  cases x with
  | nan => decide +kernel
  | ranked negative rank =>
    rw [Double.text]
    by_cases hzero : rank.val = 0
    · rw [if_pos hzero, Double.isZero, hzero, if_pos (beq_self_eq_true 0)]
      decide +kernel
    · have hz : (Double.ranked negative rank).isZero = false := by
        rw [Double.isZero]
        exact beq_false_of_ne hzero
      rw [if_neg hzero, hz, if_neg Bool.false_ne_true]
      by_cases htop : rank.val = topRank
      · rw [if_pos htop, ofText_infinity, Double.infinity]
        exact congrArg (Double.ranked negative)
          (Fin.ext ((Double.clampRank_of_le le_rfl).trans htop.symm))
      · obtain ⟨e, he, hvalue⟩ := exists_decimal?_chars (Double.shortestOfRank rank)
        rw [if_neg htop, ofText, String.toList_append, toList_sign, Decimal.text,
          String.toList_ofList]
        have hread := @read_trim e [] [] _ negative he (fun c hc => isBlank_of_mem_chars hc)
          (by simp) (by simp)
        rw [List.nil_append, List.append_nil] at hread
        rw [hread, Double.nearest_shortestOfRank negative hvalue]

/-! ## Integers -/

theorem toList_toString_int (n : Int) :
    (toString n).toList = signChars (decide (n < 0)) ++ Nat.toDigits 10 n.natAbs := by
  cases n with
  | ofNat m =>
    have hsign : ¬Int.ofNat m < 0 := Int.not_lt.mpr (Int.natCast_nonneg m)
    rw [Int.toString_eq_repr, Int.repr, Nat.toList_repr, decide_eq_false hsign]
    rfl
  | negSucc m =>
    rw [Int.toString_eq_repr, Int.repr, String.toList_append, Nat.toList_repr,
      decide_eq_true (Int.negSucc_lt_zero m)]
    rfl

theorem nearest_natural (negative : Bool) (n : Nat) :
    (⟨n, 0⟩ : Decimal).nearest negative = .nearest negative (n * Double.unitsPerOne) 1 := by
  apply Decimal.nearest_eq
  refine ⟨Nat.one_pos, ?_⟩
  rw [Decimal.value_of_exponent_eq (n := 0) rfl, Nat.cast_one, div_one, pow_zero, Nat.mul_one,
    Nat.cast_mul]

/-- **An integer is read from its text** as the double nearest to it, blanks around the text apart. -/
theorem ofText_integer {text : String} (n : Int) (hb : ∀ c ∈ before, Text.isBlank c = true)
    (ha : ∀ c ∈ after, Text.isBlank c = true)
    (ht : text.toList = before ++ (toString n).toList ++ after) : ofText text = .ofInt n := by
  have hblank (c : Char) (hc : c ∈ Nat.toDigits 10 n.natAbs) : Text.isBlank c = false :=
    Text.isBlank_of_isDigit ((digits_toDigits _).2 c hc)
  rw [ofText, ht, toList_toString_int, read_trim _ (decimal?_toDigits _) hblank hb ha,
    nearest_natural]
  rfl

end Numeral

end ScriptCore
