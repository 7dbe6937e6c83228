import Mathlib
import ScriptCore.Proofs.Comparison.Keys
import ScriptCore.Proofs.Comparison.Pairs
import ScriptCore.Proofs.Comparison.Sorting
import ScriptCore.Proofs.Number.Rounding

/-!
# The order of numbers

Null, booleans, integers and doubles other than `nan` are compared as numbers. Two integers are
compared exactly, a double and anything else by their places on the line of all doubles. Going from
an integer to the nearest double keeps the order, so these two ways of comparing agree, except where
two integers have the same nearest double: beside that double they count as equal to it, and beside
each other one of them is greater.

The order is therefore the same both ways round, and what is not greater than a number that is not
greater than a third one is not greater than the third, but for one case: two integers of more than
fifty-three binary digits, the greater one first, with the double between them that both round to.
`Heap.compare_numbers` says so, and says that numbers without such a case among them are put in
order by sorting.
-/

namespace ScriptCore

namespace Numeric

variable {x y z : Numeric} {p q r : Int}

/-- The place on the line of all doubles, for an integer that of the nearest double. -/
def place? (x : Numeric) : Option Int := x.toDouble.place?

theorem place?_integer (n : Int64) : (integer n).place? = some (Double.placeOfInt n.toInt) :=
  Double.place?_ofInt n.toInt

theorem compare?_of_place? (hx : x.place? = some p) (hy : y.place? = some q) :
    x.compare? y = some (compare p q) ∨ ∃ m n, x = .integer m ∧ y = .integer n := by
  have hplaces : x.toDouble.compare? y.toDouble = some (compare p q) := by
    rw [Double.compare?, show x.toDouble.place? = some p from hx,
      show y.toDouble.place? = some q from hy]
  cases x with
  | integer m =>
    cases y with
    | integer n => exact Or.inr ⟨m, n, rfl, rfl⟩
    | double d => exact Or.inl hplaces
  | double d => exact Or.inl hplaces

/-- The order of two numbers is **the same both ways round**. -/
theorem compare?_swap (hx : x.place? = some p) (hy : y.place? = some q) :
    ∃ o, x.compare? y = some o ∧ y.compare? x = some o.swap := by
  rcases compare?_of_place? hx hy with hxy | ⟨m, n, rfl, rfl⟩
  · rcases compare?_of_place? hy hx with hyx | ⟨n, m, rfl, rfl⟩
    · exact ⟨compare p q, hxy, hyx.trans (congrArg some (Std.OrientedOrd.eq_swap))⟩
    · exact ⟨compare m.toInt n.toInt, rfl, congrArg some Std.OrientedOrd.eq_swap⟩
  · exact ⟨compare m.toInt n.toInt, rfl, congrArg some Std.OrientedOrd.eq_swap⟩

theorem place_le (hx : x.place? = some p) (hy : y.place? = some q)
    (hle : x.compare? y ≠ some .gt) : p ≤ q := by
  rcases compare?_of_place? hx hy with hxy | ⟨m, n, rfl, rfl⟩
  · rw [hxy] at hle
    exact Int.not_lt.mp fun hlt => hle (congrArg some (compare_gt_iff_gt.mpr hlt))
  · have hmn : m.toInt ≤ n.toInt :=
      Int.not_lt.mp fun hlt => hle (congrArg some (compare_gt_iff_gt.mpr hlt))
    rw [place?_integer, Option.some.injEq] at hx hy
    rw [← hx, ← hy]
    exact Double.placeOfInt_mono hmn

theorem integers_of_gt (hx : x.place? = some p) (hy : y.place? = some q)
    (hgt : x.compare? y = some .gt) (hle : p ≤ q) :
    ∃ m n, x = .integer m ∧ y = .integer n ∧ n.toInt < m.toInt := by
  rcases compare?_of_place? hx hy with hxy | ⟨m, n, rfl, rfl⟩
  · rw [hxy, Option.some.injEq, compare_gt_iff_gt] at hgt
    omega
  · exact ⟨m, n, rfl, rfl, compare_gt_iff_gt.mp (Option.some.inj hgt)⟩

/-- **The one exception.** Where a first number is greater than a third and a second is between
them, the first and the third are integers, the second is a double, and all have one place. -/
theorem of_gt_between (hx : x.place? = some p) (hy : y.place? = some q) (hz : z.place? = some r)
    (hxy : x.compare? y ≠ some .gt) (hyz : y.compare? z ≠ some .gt) (hxz : x.compare? z = some .gt) :
    ∃ m n d, x = .integer m ∧ z = .integer n ∧ y = .double d ∧ n.toInt < m.toInt ∧
      p = q ∧ r = q := by
  have hpq := place_le hx hy hxy
  have hqr := place_le hy hz hyz
  obtain ⟨m, n, rfl, rfl, hmn⟩ := integers_of_gt hx hz hxz (hpq.trans hqr)
  rw [place?_integer, Option.some.injEq] at hx hz
  have hrp := Double.placeOfInt_mono hmn.le
  cases y with
  | integer k =>
    have hmk : m.toInt ≤ k.toInt :=
      Int.not_lt.mp fun hlt => hxy (congrArg some (compare_gt_iff_gt.mpr hlt))
    have hkn : k.toInt ≤ n.toInt :=
      Int.not_lt.mp fun hlt => hyz (congrArg some (compare_gt_iff_gt.mpr hlt))
    omega
  | double d => exact ⟨m, n, d, rfl, rfl, rfl, hmn, by omega, by omega⟩

end Numeric

namespace Value

variable {a b c : Value}

/-- Whether a value is a **number**: null, a boolean, an integer, or a double other than `nan`. -/
def isNumber : Value → Bool
  | .null | .boolean _ | .integer _ => true
  | .double d => !d.isNaN
  | .undefined | .object _ => false

theorem isNumber_iff : a.isNumber = true ↔ ∃ x p, a.numeric? = some x ∧ x.place? = some p := by
  cases a with
  | undefined => simp [isNumber, numeric?]
  | null => simp [isNumber, numeric?, Numeric.place?_integer]
  | boolean b => simp [isNumber, numeric?, Numeric.place?_integer]
  | integer n => simp [isNumber, numeric?, Numeric.place?_integer]
  | double d => cases d <;> simp [isNumber, numeric?, Numeric.place?, Numeric.toDouble, Double.isNaN,
      Double.place?]
  | object id => simp [isNumber, numeric?]

/-- Two integers and a double that is **nearest to both**, the greater integer first and the double
between them. -/
def roundTogether : Value → Value → Value → Bool
  | .integer m, .double d, .integer n =>
    decide (n.toInt < m.toInt) && (Double.ofInt m.toInt).equals d && (Double.ofInt n.toInt).equals d
  | _, _, _ => false

theorem roundTogether_iff : roundTogether a b c = true ↔
    ∃ (m n : Int64) (d : Double), a = .integer m ∧ b = .double d ∧ c = .integer n ∧
      n.toInt < m.toInt ∧ (Double.ofInt m.toInt).equals d = true ∧
      (Double.ofInt n.toInt).equals d = true := by
  constructor
  · intro hr
    unfold roundTogether at hr
    split at hr
    case h_1 m d n =>
      simp only [Bool.and_eq_true, decide_eq_true_eq] at hr
      exact ⟨m, n, d, rfl, rfl, rfl, hr.1.1, hr.1.2, hr.2⟩
    case h_2 => exact absurd hr Bool.false_ne_true
  · rintro ⟨m, n, d, rfl, rfl, rfl, hlt, hm, hn⟩
    simp [roundTogether, hlt, hm, hn]

/-- **Only integers of more than fifty-three digits** are rounded to the same double. -/
theorem beyond_of_roundTogether {m n : Int64}
    (hr : roundTogether (.integer m) b (.integer n) = true) :
    2 ^ 53 ≤ m.toInt.natAbs ∧ 2 ^ 53 ≤ n.toInt.natAbs := by
  obtain ⟨_, _, d, ⟨⟩, -, ⟨⟩, hlt, hm, hn⟩ := roundTogether_iff.mp hr
  have hplace := (Double.equals_iff.mp hm).1.trans (Double.equals_iff.mp hn).1.symm
  rw [Double.place?_ofInt, Double.place?_ofInt, Option.some.injEq] at hplace
  by_contra hsmall
  exact absurd (Double.placeOfInt_lt hlt (by omega)) (by omega)

theorem eq_integer_of_numeric? {n : Int64} (ha : a.numeric? = some (.integer n))
    (hn : 2 ^ 53 ≤ n.toInt.natAbs) : a = .integer n := by
  have hzero : ¬2 ^ 53 ≤ (0 : Int64).toInt.natAbs := by decide
  have hone : ¬2 ^ 53 ≤ (1 : Int64).toInt.natAbs := by decide
  cases a with
  | null => cases ha; exact absurd hn hzero
  | boolean b => cases b <;> cases ha <;> [exact absurd hn hzero; exact absurd hn hone]
  | integer k => cases ha; rfl
  | _ => cases ha

end Value

namespace Heap

open Value (roundTogether)

variable {h : Heap} {a b c : Value} {vs ws : List Value}

theorem compare_of_numeric? {x y : Numeric} (ha : a.numeric? = some x) (hb : b.numeric? = some y) :
    h.compare a b = (x.compare? y).getD .lt := compareWithin_of_numeric? ha hb

theorem compare_eq_iff {x y : Numeric} {p q : Int} {o : Ordering} (ha : a.numeric? = some x)
    (hb : b.numeric? = some y) (hx : x.place? = some p) (hy : y.place? = some q) :
    h.compare a b = o ↔ x.compare? y = some o := by
  obtain ⟨o', hxy, -⟩ := Numeric.compare?_swap hx hy
  rw [compare_of_numeric? ha hb, hxy, Option.getD_some, Option.some.injEq]

/-- **The order of numbers is the same both ways round.** -/
theorem compare_swap (ha : a.isNumber = true) (hb : b.isNumber = true) :
    h.compare b a = (h.compare a b).swap := by
  obtain ⟨x, p, hx, hp⟩ := Value.isNumber_iff.mp ha
  obtain ⟨y, q, hy, hq⟩ := Value.isNumber_iff.mp hb
  obtain ⟨o, hxy, hyx⟩ := Numeric.compare?_swap hp hq
  rw [(compare_eq_iff hx hy hp hq).mpr hxy, (compare_eq_iff hy hx hq hp).mpr hyx]

/-- Two integers that are **rounded together** with a double count as equal to it, and the first of
them is greater than the other. -/
theorem compare_of_roundTogether (hr : roundTogether a b c = true) :
    h.compare a b = .eq ∧ h.compare b c = .eq ∧ h.compare a c = .gt := by
  obtain ⟨m, n, d, rfl, rfl, rfl, hlt, hm, hn⟩ := Value.roundTogether_iff.mp hr
  have hn' : d.equals (.ofInt n.toInt) = true := by
    obtain ⟨hp, hsome⟩ := Double.equals_iff.mp hn
    exact Double.equals_iff.mpr ⟨hp.symm, hp ▸ hsome⟩
  refine ⟨?_, ?_, ?_⟩
  · rw [compare_of_numeric? rfl rfl]
    exact congrArg (Option.getD · .lt) (beq_iff_eq.mp hm)
  · rw [compare_of_numeric? rfl rfl]
    exact congrArg (Option.getD · .lt) (beq_iff_eq.mp hn')
  · rw [compare_of_numeric? rfl rfl]
    exact compare_gt_iff_gt.mpr hlt

/-- A number is **greater than a third one with a number between** only if they are two integers and
the double that both are rounded to. -/
theorem compare_gt_iff_roundTogether (ha : a.isNumber = true) (hb : b.isNumber = true)
    (hc : c.isNumber = true) (hab : h.compare a b ≠ .gt) (hbc : h.compare b c ≠ .gt) :
    h.compare a c = .gt ↔ roundTogether a b c = true := by
  refine ⟨fun hac => ?_, fun hr => (compare_of_roundTogether hr).2.2⟩
  obtain ⟨x, p, hx, hp⟩ := Value.isNumber_iff.mp ha
  obtain ⟨y, q, hy, hq⟩ := Value.isNumber_iff.mp hb
  obtain ⟨z, r, hz, hr⟩ := Value.isNumber_iff.mp hc
  obtain ⟨m, n, d, rfl, rfl, rfl, hlt, hpq, hrq⟩ := Numeric.of_gt_between hp hq hr
    (mt (compare_eq_iff hx hy hp hq).mpr hab) (mt (compare_eq_iff hy hz hq hr).mpr hbc)
    ((compare_eq_iff hx hz hp hr).mp hac)
  have hd : b = .double d := by
    cases b <;> cases hy
    rfl
  have hnear {k : Int64} {s : Int} (hs : (Numeric.integer k).place? = some s) (hsq : s = q) :
      (Double.ofInt k.toInt).equals d = true :=
    Double.equals_iff.mpr ⟨hs.trans (hsq ▸ hq.symm), fun hnone => nomatch hs.symm.trans hnone⟩
  have htogether : roundTogether (.integer m) (.double d) (.integer n) = true :=
    Value.roundTogether_iff.mpr ⟨m, n, d, rfl, rfl, rfl, hlt, hnear hp hpq, hnear hr hrq⟩
  have hbeyond := Value.beyond_of_roundTogether htogether
  rw [Value.eq_integer_of_numeric? hx hbeyond.1, hd, Value.eq_integer_of_numeric? hz hbeyond.2]
  exact htogether

/-- **Numbers are equal to what their equals are equal to**, but for the two integers. -/
theorem compare_eq_trans_iff (ha : a.isNumber = true) (hb : b.isNumber = true)
    (hc : c.isNumber = true) (hab : h.compare a b = .eq) (hbc : h.compare b c = .eq) :
    h.compare a c = .eq ↔ roundTogether a b c = false ∧ roundTogether c b a = false := by
  have hba : h.compare b a = .eq := by rw [compare_swap ha hb, hab]; rfl
  have hcb : h.compare c b = .eq := by rw [compare_swap hb hc, hbc]; rfl
  have hne : Ordering.eq ≠ .gt := nofun
  rw [← Bool.not_eq_true, ← Bool.not_eq_true,
    ← compare_gt_iff_roundTogether ha hb hc (hab ▸ hne) (hbc ▸ hne),
    ← compare_gt_iff_roundTogether hc hb ha (hcb ▸ hne) (hba ▸ hne), compare_swap ha hc]
  cases h.compare a c <;> simp

theorem not_less_iff (ha : a.isNumber = true) (hb : b.isNumber = true) :
    (h.compare a b == .lt) = false ↔ h.compare b a ≠ .gt := by
  rw [compare_swap ha hb, beq_eq_false_iff_ne]
  cases h.compare a b <;> simp

theorem weakOrderOn_numbers (hn : ∀ v ∈ vs, v.isNumber = true)
    (hr : ∀ a ∈ vs, ∀ b ∈ vs, ∀ c ∈ vs, roundTogether a b c = false) :
    Comparison.WeakOrderOn (fun a b => h.compare a b == .lt) vs where
  asymm a ha b hb hlt := by
    rw [beq_iff_eq] at hlt
    rw [compare_swap (hn a ha) (hn b hb), hlt]
    rfl
  trans a ha b hb c hc hab hbc := by
    rw [not_less_iff (hn a ha) (hn b hb)] at hab
    rw [not_less_iff (hn b hb) (hn c hc)] at hbc
    rw [not_less_iff (hn a ha) (hn c hc)]
    exact mt (compare_gt_iff_roundTogether (hn c hc) (hn b hb) (hn a ha) hbc hab).mp
      (Bool.not_eq_true _ ▸ hr c hc b hb a ha)

theorem ordered_numbers_iff (hn : ∀ v ∈ vs, v.isNumber = true) :
    Comparison.Ordered (fun a b => h.compare a b == .lt) vs ↔
      vs.Pairwise fun a b => h.compare a b ≠ .gt :=
  List.Pairwise.iff_of_mem fun ha hb => not_less_iff (hn _ hb) (hn _ ha)

/-- **The order of numbers.** It is the same both ways round. A number that is not greater than a
second, which is not greater than a third, is not greater than the third, unless the first and the
third are integers that are rounded together with the second, a double; and equality is transitive
with the same exception. Such integers have more than fifty-three binary digits. Numbers without
them are put in order by sorting, and that is the only order for them, up to equals. -/
theorem compare_numbers (h : Heap) :
    (∀ a b : Value, a.isNumber = true → b.isNumber = true →
      h.compare b a = (h.compare a b).swap) ∧
    (∀ a b c : Value, a.isNumber = true → b.isNumber = true → c.isNumber = true →
      h.compare a b ≠ .gt → h.compare b c ≠ .gt → (h.compare a c = .gt ↔ roundTogether a b c = true)) ∧
    (∀ a b c : Value, a.isNumber = true → b.isNumber = true → c.isNumber = true →
      h.compare a b = .eq → h.compare b c = .eq →
        (h.compare a c = .eq ↔ roundTogether a b c = false ∧ roundTogether c b a = false)) ∧
    (∀ (m n : Int64) (b : Value), roundTogether (.integer m) b (.integer n) = true →
      2 ^ 53 ≤ m.toInt.natAbs ∧ 2 ^ 53 ≤ n.toInt.natAbs) ∧
    ∀ vs : List Value, (∀ v ∈ vs, v.isNumber = true) →
      (∀ a ∈ vs, ∀ b ∈ vs, ∀ c ∈ vs, roundTogether a b c = false) →
      (h.sorted vs).Perm vs ∧ (h.sorted vs).Pairwise (h.compare · · ≠ .gt) ∧
      ∀ ws : List Value, ws.Perm vs → ws.Pairwise (h.compare · · ≠ .gt) →
        List.Forall₂ (h.compare · · = .eq) ws (h.sorted vs) := by
  refine ⟨fun a b => compare_swap, fun a b c => compare_gt_iff_roundTogether,
    fun a b c => compare_eq_trans_iff, fun m n b => Value.beyond_of_roundTogether, fun vs hn hr => ?_⟩
  have hperm : (h.sorted vs).Perm vs := Comparison.perm_sort _ vs
  have hordered := Comparison.ordered_sort (weakOrderOn_numbers (h := h) hn hr)
  have hsorted (v : Value) (hv : v ∈ h.sorted vs) : v.isNumber = true := hn v (hperm.mem_iff.mp hv)
  refine ⟨hperm, (ordered_numbers_iff hsorted).mp hordered, fun ws hws ho => ?_⟩
  have hn' (v : Value) (hv : v ∈ ws) : v.isNumber = true := hn v (hws.mem_iff.mp hv)
  have hr' (a) (ha : a ∈ ws) (b) (hb : b ∈ ws) (c) (hc : c ∈ ws) :
      roundTogether a b c = false :=
    hr a (hws.mem_iff.mp ha) b (hws.mem_iff.mp hb) c (hws.mem_iff.mp hc)
  have hplaces := Comparison.forall₂_of_ordered (weakOrderOn_numbers (h := h) hn' hr')
    (hws.trans hperm.symm) ((ordered_numbers_iff hn').mpr ho) hordered
  rw [List.forall₂_iff_zip] at hplaces ⊢
  refine ⟨hplaces.1, fun {a b} hab => ?_⟩
  obtain ⟨ha, hb⟩ := List.of_mem_zip hab
  obtain ⟨hlt, hgt⟩ := hplaces.2 hab
  rw [not_less_iff (hsorted b hb) (hn' a ha)] at hgt
  rw [beq_eq_false_iff_ne] at hlt
  cases ho : h.compare a b <;> simp_all

/-- Null, a boolean, an integer and doubles are compared both ways round, and sorted. -/
theorem compare_numbers_mixed :
    let h := Heap.initial
    let vs : List Value :=
      [.integer 7, .double (.ofInt 2), .boolean true, .null, .double (.infinity true)]
    h.compare (.integer 7) .null = (h.compare .null (.integer 7)).swap ∧
    h.compare .null (.integer 7) ≠ .gt ∧ h.compare (.boolean true) (.double (.ofInt 1)) = .eq ∧
    (h.sorted vs).Perm vs ∧ (h.sorted vs).Pairwise (h.compare · · ≠ .gt) := by
  intro h vs
  obtain ⟨hswap, htrans, heq, -, hsort⟩ := compare_numbers h
  have hsorted := hsort vs (by decide +kernel) (by decide +kernel)
  refine ⟨hswap .null (.integer 7) rfl rfl, ?_, ?_, hsorted.1, hsorted.2.1⟩
  · rw [Ne, htrans .null (.boolean true) (.integer 7) rfl rfl rfl (by decide +kernel)
      (by decide +kernel)]
    decide +kernel
  · rw [heq (.boolean true) (.integer 1) (.double (.ofInt 1)) rfl rfl (by decide +kernel)
      (by decide +kernel) (by decide +kernel)]
    decide +kernel

/-- Between two integers past `2 ^ 53` the double `2 ^ 53` counts as equal to both, so equality is
not transitive, and a number can be greater than one that it is not greater than by way of a third. -/
theorem compare_numbers_rounded :
    let above : Value := .integer 9007199254740993
    let between : Value := .double (.ofInt 9007199254740992)
    let below : Value := .integer 9007199254740992
    (above.isNumber = true ∧ between.isNumber = true ∧ below.isNumber = true) ∧
    Heap.initial.compare above between = .eq ∧ Heap.initial.compare between below = .eq ∧
    Heap.initial.compare above below = .gt := by
  decide +kernel

end Heap

end ScriptCore
