import Mathlib
import ScriptCore.Operator

/-!
# Integers as words

Null, booleans and integers count as integers between `-2 ^ 63` and `2 ^ 63`. What the operators make of
them is said of integers without bounds (`Operator.Computes`): sums, differences and products are brought
back into the range modulo `2 ^ 64`, remainders are those of division toward zero, and a shift by `n` is
one by `n % 64` places. Bits are those of the **word** of an integer, which is its remainder modulo `2 ^ 64`.

Each operator is a lemma about 64-bit integers, and `Heap.integers_computed` puts them together: every
operator comes to a value, and never to anything else.
-/

namespace ScriptCore

/-- What counts as an integer, and as which one. -/
inductive Value.CountsAs : Value → Int → Prop
  | null : CountsAs .null 0
  | boolean (b : Bool) : CountsAs (.boolean b) (if b then 1 else 0)
  | integer (n : Int64) : CountsAs (.integer n) n.toInt

def Value.IsInteger (v : Value) (r : Int) : Prop := ∃ n : Int64, v = .integer n ∧ n.toInt = r

namespace Operator

/-- The 64 bits of an integer in two's complement, as a natural number. -/
def word (n : Int) : Nat := (n % 2 ^ 64).toNat

/-- How many places a shift by an integer goes. It is never negative. -/
def places (n : Int) : Nat := (n % 64).toNat

/-- A remainder of division by `n`: nearer to zero than `n`, and on the side of the dividend. -/
structure IsRemainder (m n r : Int) : Prop where
  dvd : n ∣ m - r
  lt : |r| < |n|
  sign : r = 0 ∨ r.sign = m.sign

/-- Each bit of a value's word comes from the bits at the same place in two words. -/
def IsBitwise (f : Bool → Bool → Bool) (m n : Int) (v : Value) : Prop :=
  ∃ r, v.IsInteger r ∧ ∀ i < 64, (word r).testBit i = f ((word m).testBit i) ((word n).testBit i)

/-- **What a binary operator makes of two integers.** Quotients and powers are doubles. -/
def Computes (op : BinaryOp) (m n : Int) (v : Value) : Prop :=
  match op with
  | .add => v.IsInteger ((m + n).bmod (2 ^ 64))
  | .sub => v.IsInteger ((m - n).bmod (2 ^ 64))
  | .mul => v.IsInteger ((m * n).bmod (2 ^ 64))
  | .rem =>
    (n = 0 → v = .double .nan) ∧
      (n ≠ 0 → ∃ r, v.IsInteger r ∧ ∀ x, IsRemainder m n x ↔ x = r)
  | .and => IsBitwise and m n v
  | .or => IsBitwise or m n v
  | .xor => IsBitwise xor m n v
  | .shl => v.IsInteger ((m * 2 ^ places n).bmod (2 ^ 64))
  | .shr => v.IsInteger (m / 2 ^ places n)
  | .ushr => v.IsInteger (Int.bmod ((word m / 2 ^ places n : Nat) : Int) (2 ^ 64))
  | .div | .pow => ∃ d, v = .double d

/-! ## Remainders -/

namespace IsRemainder

variable {m n r : Int}

theorem tmod (m : Int) (hn : n ≠ 0) : IsRemainder m n (m.tmod n) := by
  refine ⟨Int.dvd_self_sub_tmod, ?_, ?_⟩
  · rw [Int.abs_eq_natAbs, Int.abs_eq_natAbs, Int.natAbs_tmod]
    exact_mod_cast Nat.mod_lt _ (Int.natAbs_pos.mpr hn)
  · by_cases hd : n ∣ m
    · exact Or.inl (Int.tmod_eq_zero_of_dvd hd)
    · exact Or.inr ((Int.sign_tmod m n).trans (if_neg hd))

/-- There is one such remainder only: two of them differ by a multiple of the divisor, and are less
than that apart. -/
theorem unique {s : Int} (hr : IsRemainder m n r) (hs : IsRemainder m n s) : r = s := by
  have hd : n ∣ s - r := by
    have hsub : s - r = (m - r) - (m - s) := by ring
    rw [hsub]
    exact dvd_sub hr.dvd hs.dvd
  have hapart : |s - r| < |n| := by
    have hrn := hr.lt
    have hsn := hs.lt
    rcases hr.sign with rfl | hrm
    · simpa using hsn
    · rcases hs.sign with rfl | hsm
      · simpa using hrn
      · -- Both are on one side of zero.
        have hsame : r.sign = s.sign := hrm.trans hsm.symm
        rcases lt_trichotomy r 0 with hneg | rfl | hpos
        · have hsneg : s < 0 := Int.sign_eq_neg_one_iff_neg.mp
            (hsame.symm.trans (Int.sign_eq_neg_one_of_neg hneg))
          rw [abs_of_neg hneg] at hrn
          rw [abs_of_neg hsneg] at hsn
          exact abs_lt.mpr ⟨by omega, by omega⟩
        · simpa using hsn
        · have hspos : 0 < s := Int.sign_eq_one_iff_pos.mp
            (hsame.symm.trans (Int.sign_eq_one_of_pos hpos))
          rw [abs_of_pos hpos] at hrn
          rw [abs_of_pos hspos] at hsn
          exact abs_lt.mpr ⟨by omega, by omega⟩
  have hzero := Int.eq_zero_of_abs_lt_dvd ((abs_dvd n _).mpr hd) hapart
  omega

end IsRemainder

/-! ## Words and shifts -/

theorem natCast_word (n : Int) : (word n : Int) = n % (2 ^ 64 : Nat) :=
  Int.toNat_of_nonneg (Int.emod_nonneg n (by decide))

theorem word_toInt (n : Int64) : word n.toInt = n.toBitVec.toNat := by
  have hlt : n.toBitVec.toNat < 2 ^ 64 := n.toBitVec.isLt
  apply Int.natCast_inj.mp
  calc (word n.toInt : Int) = n.toBitVec.toInt % (2 ^ 64 : Nat) := natCast_word n.toInt
    _ = (n.toBitVec.toNat : Int) % (2 ^ 64 : Nat) := by
      rw [BitVec.toInt_eq_toNat_bmod, Int.bmod_emod]
    _ = n.toBitVec.toNat := Int.emod_eq_of_lt (Int.natCast_nonneg _) (Int.ofNat_lt.mpr hlt)

theorem testBit_word (n : Int64) (i : Nat) : (word n.toInt).testBit i = n.toBitVec.getLsbD i := by
  rw [word_toInt, BitVec.testBit_toNat]

theorem toNat_smod (n : Int64) : (n.toBitVec.smod 64).toNat = places n.toInt := by
  have hint : (n.toBitVec.smod 64).toInt = n.toInt % 64 := by
    rw [BitVec.toInt_smod]
    exact Int.fmod_eq_emod_of_nonneg _ (by decide)
  have hcases := BitVec.toInt_eq_toNat_cond (n.toBitVec.smod 64)
  have hlt := (n.toBitVec.smod 64).isLt
  rw [places]
  split at hcases <;> omega

theorem toInt_shiftLeft (m n : Int64) :
    (m <<< n).toInt = (m.toInt * 2 ^ places n.toInt).bmod (2 ^ 64) := by
  calc (m <<< n).toInt = (m.toBitVec <<< places n.toInt).toInt := by
        show (m <<< n).toBitVec.toInt = _
        rw [Int64.toBitVec_shiftLeft, BitVec.shiftLeft_eq', toNat_smod]
    _ = Int.bmod ((m.toBitVec.toNat * 2 ^ places n.toInt : Nat) : Int) (2 ^ 64) := by
        rw [BitVec.toInt_shiftLeft, Nat.shiftLeft_eq]
    _ = (m.toInt % (2 ^ 64 : Nat) * 2 ^ places n.toInt).bmod (2 ^ 64) := by
        rw [← word_toInt, Int.natCast_mul, natCast_word, Int.natCast_pow]
        rfl
    _ = (m.toInt * 2 ^ places n.toInt).bmod (2 ^ 64) := Int.emod_mul_bmod _ _

theorem toInt_shiftRight (m n : Int64) : (m >>> n).toInt = m.toInt / 2 ^ places n.toInt := by
  show (m >>> n).toBitVec.toInt = _
  rw [Int64.toBitVec_shiftRight, BitVec.toInt_sshiftRight', toNat_smod, Int.shiftRight_eq_div_pow,
    Int.natCast_pow]
  rfl

theorem word_mod (n : Int) : word n % 64 = places n := by
  have hword := natCast_word n
  rw [places]
  omega

theorem toInt_shiftRightUnsigned (m n : Int64) : (shiftRightUnsigned m n).toInt =
    Int.bmod ((word m.toInt / 2 ^ places n.toInt : Nat) : Int) (2 ^ 64) := by
  have hcount : n.toUInt64.toNat % 64 = places n.toInt := by
    rw [← word_mod, word_toInt]
    rfl
  show (m.toUInt64 >>> n.toUInt64).toBitVec.toInt = _
  rw [BitVec.toInt_eq_toNat_bmod, UInt64.toNat_toBitVec, UInt64.toNat_shiftRight, hcount,
    Nat.shiftRight_eq_div_pow, word_toInt]
  rfl

/-! ## Operators on integers -/

theorem isInteger_of_toInt {n : Int64} {r : Int} (hr : n.toInt = r) :
    (Value.integer n).IsInteger r := ⟨n, rfl, hr⟩

theorem eq_integer_of_isInteger {v : Value} {r : Int} (hv : v.IsInteger r) (n : Int64)
    (hr : n.toInt = r) : v = .integer n := by
  obtain ⟨w, rfl, hw⟩ := hv
  rw [Int64.toInt_inj.mp (hw.trans hr.symm)]

theorem isBitwise_of_getLsbD {f : Bool → Bool → Bool} {m n r : Int64}
    (hbits : ∀ i < 64, r.toBitVec.getLsbD i = f (m.toBitVec.getLsbD i) (n.toBitVec.getLsbD i)) :
    IsBitwise f m.toInt n.toInt (.integer r) := by
  refine ⟨r.toInt, isInteger_of_toInt rfl, fun i hi => ?_⟩
  rw [testBit_word, testBit_word, testBit_word]
  exact hbits i hi

theorem computes_remainder (m n : Int64) : Computes .rem m.toInt n.toInt (remainder m n) := by
  have hzero : n = 0 ↔ n.toInt = 0 := Int64.toInt_inj.symm
  refine ⟨fun hn => if_pos (hzero.mpr hn), fun hn => ⟨m.toInt.tmod n.toInt, ?_, fun x => ?_⟩⟩
  · rw [remainder, if_neg fun he => hn (hzero.mp he)]
    exact isInteger_of_toInt (Int64.toInt_mod m n)
  · exact ⟨fun hx => hx.unique (.tmod _ hn), fun he => he ▸ .tmod _ hn⟩

/-- **Every operator on integers.** -/
theorem computes_onNumbers (op : BinaryOp) {a b : Value} {m n : Int64}
    (ha : a.numeric? = some (.integer m)) (hb : b.numeric? = some (.integer n)) :
    Computes op m.toInt n.toInt (onNumbers op a b) := by
  cases op <;> simp only [onNumbers, arithmetic, floating, bitwise, ha, hb, Numeric.toInt64]
  case add => exact isInteger_of_toInt (Int64.toInt_add m n)
  case sub => exact isInteger_of_toInt (Int64.toInt_sub m n)
  case mul => exact isInteger_of_toInt (Int64.toInt_mul m n)
  case rem => exact computes_remainder m n
  case div => exact ⟨_, rfl⟩
  case pow => exact ⟨_, rfl⟩
  case and => exact isBitwise_of_getLsbD fun i _ => BitVec.getLsbD_and
  case or => exact isBitwise_of_getLsbD fun i _ => BitVec.getLsbD_or
  case xor => exact isBitwise_of_getLsbD fun i _ => BitVec.getLsbD_xor
  case shl => exact isInteger_of_toInt (toInt_shiftLeft m n)
  case shr => exact isInteger_of_toInt (toInt_shiftRight m n)
  case ushr => exact isInteger_of_toInt (toInt_shiftRightUnsigned m n)

theorem exists_numeric? {a : Value} {m : Int} (ha : a.CountsAs m) :
    ∃ w : Int64, a.numeric? = some (.integer w) ∧ w.toInt = m := by
  cases ha with
  | null => exact ⟨0, rfl, rfl⟩
  | boolean b => exact ⟨if b then 1 else 0, rfl, by cases b <;> rfl⟩
  | integer n => exact ⟨n, rfl, rfl⟩

end Operator

namespace Heap

theorem binary_of_numbers (h : Heap) (op : BinaryOp) {a b : Value} {m n : Numeric}
    (ha : a.numeric? = some m) (hb : b.numeric? = some n) :
    h.binary op a b = .value (Operator.onNumbers op a b) := by
  have hplain {v : Value} {k : Numeric} (hv : v.numeric? = some k) :
      v ≠ .undefined ∧ h.isString v = false := by
    cases v with
    | undefined => cases hv
    | object id => cases hv
    | _ => exact ⟨by simp, rfl⟩
  rw [binary, if_neg (not_or.mpr ⟨(hplain ha).1, (hplain hb).1⟩), if_neg]
  rintro ⟨-, hjoins⟩
  simp [joinsText, (hplain ha).2, (hplain hb).2, ha, hb] at hjoins

theorem run_binary_of_value {h : Heap} {op : BinaryOp} {a b v : Value}
    (hv : h.binary op a b = .value v) : (HeapM.binary op a b).run h = (v, h) := by
  simp only [HeapM.binary, StateT.run_bind, StateT.run_get, pure_bind, hv]
  rfl

/-- **Integer operators compute in two's complement**, on null, booleans and integers. Every binary
operator comes to a value that is a scalar, with the heap as it was. -/
theorem integers_computed (h : Heap) {a b : Value} {m n : Int} (ha : a.CountsAs m)
    (hb : b.CountsAs n) :
    (∀ op, ∃ v, (HeapM.binary op a b).run h = (v, h) ∧ Operator.Computes op m n v) ∧
    (Operator.unary .minus a).IsInteger ((-m).bmod (2 ^ 64)) ∧
    ∃ r, (Operator.unary .bitNot a).IsInteger r ∧
      ∀ i < 64, (Operator.word r).testBit i = !(Operator.word m).testBit i := by
  obtain ⟨x, hx, rfl⟩ := Operator.exists_numeric? ha
  obtain ⟨y, hy, rfl⟩ := Operator.exists_numeric? hb
  refine ⟨fun op => ⟨_, run_binary_of_value (h.binary_of_numbers op hx hy),
    Operator.computes_onNumbers op hx hy⟩, ?_, (~~~x).toInt, ?_, ?_⟩
  · simp only [Operator.unary, hx]
    exact Operator.isInteger_of_toInt (Int64.toInt_neg x)
  · simp only [Operator.unary, hx]
    exact Operator.isInteger_of_toInt rfl
  · intro i hi
    rw [Operator.testBit_word, Operator.testBit_word, Int64.toBitVec_not, BitVec.getLsbD_not,
      decide_eq_true hi, Bool.true_and]

/-- At the ends of the range: the greatest integer and true make the least one, which is its own
negative and leaves no remainder by minus one. A shift by minus 63 is one by a single place. -/
theorem integers_computed_extremes :
    (HeapM.binary .add (.integer Int64.maxValue) (.boolean true)).run .initial =
      (.integer Int64.minValue, .initial) ∧
    (HeapM.binary .rem (.integer Int64.minValue) (.integer (-1))).run .initial =
      (.integer 0, .initial) ∧
    (HeapM.binary .ushr (.integer Int64.minValue) (.integer (-63))).run .initial =
      (.integer 4611686018427387904, .initial) ∧
    Operator.unary .minus (.integer Int64.minValue) = .integer Int64.minValue := by
  refine ⟨?_, ?_, ?_, ?_⟩
  · obtain ⟨v, hrun, hv⟩ :=
      (integers_computed .initial (.integer Int64.maxValue) (.boolean true)).1 .add
    rw [hrun, Operator.eq_integer_of_isInteger hv Int64.minValue (by decide)]
  · obtain ⟨v, hrun, -, hv⟩ :=
      (integers_computed .initial (.integer Int64.minValue) (.integer (-1))).1 .rem
    obtain ⟨r, hr, hunique⟩ := hv (by decide)
    have hzero : Operator.IsRemainder Int64.minValue.toInt (-1 : Int64).toInt 0 :=
      ⟨by decide, by decide, Or.inl rfl⟩
    rw [hrun, Operator.eq_integer_of_isInteger hr 0 ((hunique 0).mp hzero)]
  · obtain ⟨v, hrun, hv⟩ :=
      (integers_computed .initial (.integer Int64.minValue) (.integer (-63))).1 .ushr
    rw [hrun, Operator.eq_integer_of_isInteger hv 4611686018427387904 (by decide)]
  · exact Operator.eq_integer_of_isInteger
      (integers_computed .initial (.integer Int64.minValue) .null).2.1 Int64.minValue (by decide)

end Heap

end ScriptCore
