import ScriptCore.Proofs.Conversion.Checked
import ScriptCore.Proofs.Number.Integers
import ScriptCore.Proofs.Number.Texts

/-!
# Numbers from texts

A string is converted to a number by reading it, and a number to a string by writing it. Doubles that are
written and read again are what they were, one zero and one `nan` standing for all of them
(`Heap.toNumber_toText`).

Integers are read as doubles. So the text of an integer comes to the nearest double, and a conversion to an
integer brings that back into the range. The integer itself is found again only if it is exact, or the
greatest one (`Heap.convert_integerText`).
-/

namespace ScriptCore

namespace Double

/-- **Patterns** are found again in the doubles that have them, `nan` apart. -/
theorem toBits_ofBits {bits : Nat} (hb : bits < 2 ^ 64) (hn : (ofBits bits).isNaN = false) :
    (ofBits bits).toBits = bits := by
  have hsign : signBit = 2 ^ 63 := rfl
  have hdiv := Nat.div_add_mod bits signBit
  have hlt : bits / signBit < 2 := Nat.div_lt_of_lt_mul (by omega)
  by_cases hr : bits % signBit ≤ topRank
  · rw [ofBits, if_pos hr, toBits, clampRank_of_le hr]
    generalize bits / signBit = sign at hdiv hlt
    obtain rfl | rfl : sign = 0 ∨ sign = 1 := by omega
    · simpa using hdiv
    · simpa using hdiv
  · rw [ofBits, if_neg hr] at hn
    cases hn

end Double

namespace Heap

variable {h k : Heap} {v w : Value} {before after : List Char} {text : String}

theorem toNumber_of_text? (hv : h.text? v = some text) : h.toNumber v = Numeral.ofText text := by
  rw [toNumber, hv]

theorem toText_integer (h : Heap) (i : Int64) : h.toText (.integer i) = toString i.toInt := by
  rw [toText, display, render]
  rfl

theorem toText_double (h : Heap) (d : Double) : h.toText (.double d) = d.text := by
  rw [toText, display, render]
  rfl

theorem natAbs_toInt_le (i : Int64) : i.toInt.natAbs ≤ 2 ^ 63 := by
  have hl := i.le_toInt
  have hg := i.toInt_lt
  omega

def heldText (text : String) : Heap :=
  (Session.initial.run [⟨.store (.keep (.text text)), some "text", none⟩]).2.heap

/-- **Written and read again.** A string that holds the text of a number comes to the same double as the
number: the nearest one to an integer, and a double itself, with positive zero for both zeros. All patterns
of 64 bits are found again, the zeros and `nan` apart. -/
theorem toNumber_toText (h k : Heap) (w : Value) :
    (∀ i : Int64, k.text? w = some (h.toText (.integer i)) →
      k.toNumber w = h.toNumber (.integer i) ∧ (k.toNumber w).IsNearest i.toInt) ∧
    (∀ d : Double, k.text? w = some (h.toText (.double d)) →
      h.toNumber (.double d) = d ∧ k.toNumber w = if d.isZero then .zero false else d) ∧
    ∀ bits < 2 ^ 64, k.text? w = some (h.toText (.double (.ofBits bits))) →
      (Double.ofBits bits).isZero = false → (Double.ofBits bits).isNaN = false →
        (k.toNumber w).toBits = bits := by
  have hdouble (d : Double) (hw : k.text? w = some (h.toText (.double d))) :
      k.toNumber w = if d.isZero then .zero false else d := by
    rw [toNumber_of_text? hw, toText_double, Numeral.ofText_text]
  refine ⟨?_, ?_, ?_⟩
  · intro i hw
    have hread : k.toNumber w = .ofInt i.toInt := by
      rw [toNumber_of_text? hw, toText_integer]
      exact @Numeral.ofText_integer [] [] _ i.toInt (by simp) (by simp) (by simp)
    refine ⟨?_, ?_⟩
    · rw [hread, toNumber_of_numeric? rfl]
      rfl
    · rw [hread]
      exact Double.isNearest_ofInt (natAbs_toInt_le i)
  · intro d hw
    refine ⟨?_, hdouble d hw⟩
    rw [toNumber_of_numeric? rfl]
    rfl
  · intro bits hb hw hz hn
    rw [hdouble _ hw, hz, if_neg Bool.false_ne_true, Double.toBits_ofBits hb hn]

/-- The first integer that is no double, and a tenth. -/
theorem toNumber_toText_heldText :
    (heldText "9007199254740993").toNumber (.object 4) =
      (heldText "").toNumber (.integer 9007199254740993) ∧
    ((heldText "0.1").toNumber (.object 4)).toBits = 0x3FB999999999999A := by
  have hinteger : (heldText "9007199254740993").text? (.object 4) =
      some ((heldText "").toText (.integer 9007199254740993)) := by
    rw [toText_integer]
    decide +kernel
  have htenth : (heldText "0.1").text? (.object 4) =
      some ((heldText "").toText (.double (.ofBits 0x3FB999999999999A))) := by
    rw [toText_double]
    decide +kernel
  exact ⟨((toNumber_toText _ _ _).1 _ hinteger).1,
    (toNumber_toText _ _ _).2.2 _ (by decide) htenth (by decide +kernel) (by decide +kernel)⟩

end Heap

end ScriptCore
