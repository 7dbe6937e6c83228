import Mathlib.Data.List.Forall2
import Mathlib.Data.List.TakeWhile
import Mathlib.Data.Nat.Digits.Defs
import ScriptCore.Number.Numeral

/-!
# The grammar of numerals

Which texts are numerals of scripts (`Numeral.Grammar`), said without a reader: nothing at all, an
infinity, hexadecimal digits after their mark, or decimal digits with an optional point and exponent.
Each part of the reader accepts what its part of the grammar allows: signs (`signed_iff`), exponents
(`exponent?_isSome_iff`), decimals (`decimal?_isSome_iff`) and hexadecimals (`hexDigits?_eq_some_iff`).

As a whole the reader accepts one kind of text more, which is no numeral of scripts: hexadecimal digits
with a plus between them and their mark. `Numeral.ofText_ne_nan_iff`.
-/

namespace ScriptCore

namespace Numeral

variable {cs rest : List Char} {body : List Char → Prop}

/-! ## The grammar -/

def Signed (body : List Char → Prop) (cs : List Char) : Prop :=
  ∃ sign rest, sign ∈ [[], ['+'], ['-']] ∧ cs = sign ++ rest ∧ body rest

def Digits (cs : List Char) : Prop := cs ≠ [] ∧ ∀ c ∈ cs, c.isDigit = true

/-- Digits with an optional point, at least one digit before or after it. -/
def Mantissa (cs : List Char) : Prop :=
  Digits cs ∨ ∃ whole fraction, cs = whole ++ '.' :: fraction ∧ Digits (whole ++ fraction)

/-- Nothing, or a mark with digits that may have a sign. -/
def Exponent (cs : List Char) : Prop :=
  cs = [] ∨ ∃ mark rest, cs = mark :: rest ∧ (mark = 'e' ∨ mark = 'E') ∧ Signed Digits rest

def Unsigned (cs : List Char) : Prop :=
  ∃ mantissa exponent, cs = mantissa ++ exponent ∧ Mantissa mantissa ∧ Exponent exponent

/-- Hexadecimal digits, at least one of them, of a number below `2 ^ 64`. -/
def Hexadecimal (cs : List Char) : Prop :=
  ∃ digits : List Nat, List.Forall₂ (fun c d => hexDigit? c = some d) cs digits ∧
    digits ≠ [] ∧ Nat.ofDigits 16 digits.reverse ≤ 2 ^ 64 - 1

/-- The numerals of scripts. -/
inductive Grammar : List Char → Prop
  | blank : Grammar []
  | infinity {cs : List Char} (hi : Signed (· = "Infinity".toList) cs) : Grammar cs
  | hexadecimal {mark : Char} {cs : List Char} (hm : mark = 'x' ∨ mark = 'X') (hx : Hexadecimal cs) :
      Grammar ('0' :: mark :: cs)
  | decimal {cs : List Char} (hd : Signed Unsigned cs) : Grammar cs

/-- Hexadecimal digits with a plus between them and their mark. -/
def PlusAfterMark (cs : List Char) : Prop :=
  ∃ mark digits, cs = '0' :: mark :: '+' :: digits ∧ (mark = 'x' ∨ mark = 'X') ∧ Hexadecimal digits

/-! ## Signs -/

theorem eq_sign_append (cs : List Char) :
    ∃ sign ∈ [[], ['+'], ['-']], cs = sign ++ (spanSign cs).2 := by
  unfold spanSign
  split
  · exact ⟨['-'], by decide, rfl⟩
  · exact ⟨['+'], by decide, rfl⟩
  · exact ⟨[], by decide, rfl⟩

theorem signed_iff (hbody : ∀ c rest, body (c :: rest) → c ≠ '-' ∧ c ≠ '+') :
    Signed body cs ↔ body (spanSign cs).2 := by
  constructor
  · rintro ⟨sign, rest, hsign, rfl, hr⟩
    have hbare : (spanSign rest).2 = rest := by
      unfold spanSign
      split
      · exact absurd rfl (hbody _ _ hr).1
      · exact absurd rfl (hbody _ _ hr).2
      · rfl
    simp only [List.mem_cons, List.not_mem_nil, or_false] at hsign
    obtain rfl | rfl | rfl := hsign
    · rwa [List.nil_append, hbare]
    · exact hr
    · exact hr
  · intro hr
    obtain ⟨sign, hsign, hcs⟩ := eq_sign_append cs
    exact ⟨sign, _, hsign, hcs, hr⟩

theorem ne_sign_of_isDigit {c : Char} (hc : c.isDigit = true) : c ≠ '-' ∧ c ≠ '+' :=
  ⟨by rintro rfl; exact absurd hc (by decide), by rintro rfl; exact absurd hc (by decide)⟩

/-! ## Decimals -/

theorem natural?_isSome_iff : (natural? cs).isSome ↔ Digits cs := by
  unfold natural? Digits
  split_ifs with hd <;> simp_all

theorem signed_digits_iff : Signed Digits cs ↔ Digits (spanSign cs).2 :=
  signed_iff fun c _ hd => ne_sign_of_isDigit (hd.2 c List.mem_cons_self)

theorem exponent?_isSome_iff : (exponent? cs).isSome ↔ Exponent cs := by
  cases cs with
  | nil => simp [exponent?, Exponent]
  | cons c rest =>
    have hcast (n? : Option Nat) : (do let n ← n?; pure (n : Int)).isSome = n?.isSome := by
      cases n? <;> rfl
    rw [exponent?]
    split_ifs with hc
    · rw [Option.isSome_map, hcast, natural?_isSome_iff, ← signed_digits_iff]
      refine ⟨fun hs => Or.inr ⟨c, rest, rfl, hc, hs⟩, ?_⟩
      rintro (h | ⟨mark, rest', h, -, hs⟩)
      · cases h
      · cases h
        exact hs
    · refine ⟨fun h => absurd h Bool.false_ne_true, ?_⟩
      rintro (h | ⟨mark, rest', h, hm, -⟩)
      · cases h
      · cases h
        exact absurd hm hc

theorem spanDigits_append {digits : List Char} (hd : ∀ c ∈ digits, c.isDigit = true)
    (hr : ∀ c ∈ rest.head?, c.isDigit = false) : spanDigits (digits ++ rest) = (digits, rest) := by
  unfold spanDigits
  rw [List.takeWhile_append_of_pos hd, List.dropWhile_append_of_pos hd]
  cases rest with
  | nil => simp
  | cons c rest => simp [hr c rfl]

theorem spanDigits_eq (cs : List Char) :
    (∀ c ∈ (spanDigits cs).1, c.isDigit = true) ∧ cs = (spanDigits cs).1 ++ (spanDigits cs).2 :=
  ⟨fun _ hc => List.mem_takeWhile_imp hc, List.takeWhile_append_dropWhile.symm⟩

theorem Exponent.not_isDigit (he : Exponent cs) : ∀ c ∈ cs.head?, c.isDigit = false := by
  rintro c hc
  obtain rfl | ⟨mark, rest, rfl, rfl | rfl, -⟩ := he
  · cases hc
  · obtain rfl := Option.some.inj hc
    decide
  · obtain rfl := Option.some.inj hc
    decide

theorem Exponent.ne_point (he : Exponent ('.' :: rest)) : False := by
  obtain h | ⟨mark, rest, h, rfl | rfl, -⟩ := he <;> cases h

theorem decimal?_isSome_of_point {after : List Char} (hr : (spanDigits cs).2 = '.' :: after) :
    (decimal? cs).isSome ↔
      (spanDigits cs).1 ++ (spanDigits after).1 ≠ [] ∧ Exponent (spanDigits after).2 := by
  rw [← exponent?_isSome_iff, decimal?]
  simp only [hr]
  split_ifs with hd <;> simp [hd]

theorem decimal?_isSome_of_ne_point (hr : ∀ after, (spanDigits cs).2 ≠ '.' :: after) :
    (decimal? cs).isSome ↔ (spanDigits cs).1 ≠ [] ∧ Exponent (spanDigits cs).2 := by
  rw [← exponent?_isSome_iff, decimal?]
  generalize spanDigits cs = spanned at hr ⊢
  obtain ⟨whole, rest⟩ := spanned
  dsimp only at hr ⊢
  split
  · next after => exact absurd rfl (hr after)
  · simp only [List.append_nil]
    split_ifs with hd <;> simp [hd]

theorem digits_append {whole fraction : List Char} (hw : ∀ c ∈ whole, c.isDigit = true)
    (hf : ∀ c ∈ fraction, c.isDigit = true) (hne : whole ++ fraction ≠ []) :
    Digits (whole ++ fraction) :=
  ⟨hne, fun c hc => (List.mem_append.mp hc).elim (hw c) (hf c)⟩

/-- **Decimals** are read exactly if they are a mantissa and an exponent. -/
theorem decimal?_isSome_iff : (decimal? cs).isSome ↔ Unsigned cs := by
  constructor
  · intro hs
    obtain ⟨hwhole, hcs⟩ := spanDigits_eq cs
    by_cases hpoint : ∃ after, (spanDigits cs).2 = '.' :: after
    · obtain ⟨after, hafter⟩ := hpoint
      obtain ⟨hne, he⟩ := (decimal?_isSome_of_point hafter).mp hs
      obtain ⟨hfraction, hrest⟩ := spanDigits_eq after
      refine ⟨(spanDigits cs).1 ++ '.' :: (spanDigits after).1, (spanDigits after).2, ?_,
        Or.inr ⟨_, _, rfl, digits_append hwhole hfraction hne⟩, he⟩
      rw [List.append_assoc, List.cons_append, ← hrest, ← hafter, ← hcs]
    · obtain ⟨hne, he⟩ := (decimal?_isSome_of_ne_point (not_exists.mp hpoint)).mp hs
      exact ⟨_, _, hcs, Or.inl ⟨hne, hwhole⟩, he⟩
  · rintro ⟨mantissa, exponent, rfl, hd | ⟨whole, fraction, rfl, hd⟩, he⟩
    · have hspan := spanDigits_append hd.2 he.not_isDigit
      rw [decimal?_isSome_of_ne_point, hspan]
      · exact ⟨hd.1, he⟩
      · rintro after hafter
        rw [hspan] at hafter
        subst hafter
        exact he.ne_point
    · have hspan : spanDigits (whole ++ '.' :: fraction ++ exponent) =
          (whole, '.' :: (fraction ++ exponent)) := by
        rw [List.append_assoc]
        refine spanDigits_append (fun c hc => hd.2 c (List.mem_append_left _ hc)) fun c hc => ?_
        obtain rfl := Option.some.inj hc
        decide
      have hfraction : spanDigits (fraction ++ exponent) = (fraction, exponent) := spanDigits_append
        (fun c hc => hd.2 c (List.mem_append_right _ hc)) he.not_isDigit
      rw [decimal?_isSome_of_point (congrArg Prod.snd hspan), hspan, hfraction]
      exact ⟨hd.1, he⟩

theorem Unsigned.head {c : Char} (hu : Unsigned (c :: rest)) : c.isDigit = true ∨ c = '.' := by
  by_contra! hc
  have hspan : spanDigits (c :: rest) = ([], c :: rest) :=
    @spanDigits_append (c :: rest) [] (by simp) fun d hd => by
      obtain rfl := Option.some.inj hd
      exact Bool.eq_false_iff.mpr hc.1
  have hs := decimal?_isSome_iff.mpr hu
  rw [decimal?_isSome_of_ne_point fun after h => hc.2 (by rw [hspan] at h; cases h; rfl), hspan] at hs
  exact hs.1 rfl

theorem signed_unsigned_iff : Signed Unsigned cs ↔ (decimal? (spanSign cs).2).isSome := by
  rw [decimal?_isSome_iff]
  refine signed_iff fun c rest hu => ?_
  obtain hc | rfl := hu.head
  · exact ne_sign_of_isDigit hc
  · decide

/-! ## Hexadecimals -/

/-- **Hexadecimal digits** are read one by one, each one worth sixteen times the next. -/
theorem hexDigits?_eq_some_iff {acc n : Nat} : hexDigits? acc cs = some n ↔
    ∃ digits : List Nat, List.Forall₂ (fun c d => hexDigit? c = some d) cs digits ∧ digits ≠ [] ∧
      n = acc * 16 ^ digits.length + Nat.ofDigits 16 digits.reverse := by
  fun_induction hexDigits? acc cs generalizing n with
  | case1 acc =>
    simp
  | case2 acc c =>
    rw [Option.map_eq_some_iff]
    constructor
    · rintro ⟨d, hd, rfl⟩
      exact ⟨[d], .cons hd .nil, by simp, by simp [Nat.ofDigits_singleton]⟩
    · rintro ⟨_, hall, -, rfl⟩
      cases hall with
      | cons hd hrest =>
        cases hrest
        exact ⟨_, hd, by simp [Nat.ofDigits_singleton]⟩
  | case3 acc c rest hrest ih =>
    have hvalue (d : Nat) (digits : List Nat) :
        acc * 16 ^ (d :: digits).length + Nat.ofDigits 16 (d :: digits).reverse =
          (acc * 16 + d) * 16 ^ digits.length + Nat.ofDigits 16 digits.reverse := by
      rw [List.reverse_cons, Nat.ofDigits_append, Nat.ofDigits_singleton, List.length_reverse,
        List.length_cons, pow_succ]
      ring
    rw [Option.bind_eq_some_iff]
    constructor
    · rintro ⟨d, hd, hn⟩
      obtain ⟨digits, hall, -, rfl⟩ := ih d |>.mp hn
      exact ⟨d :: digits, .cons hd hall, by simp, (hvalue d digits).symm⟩
    · rintro ⟨_, hall, -, rfl⟩
      cases hall with
      | @cons _ d _ digits hd hall =>
        refine ⟨d, hd, (ih d).mpr ⟨digits, hall, ?_, hvalue d digits⟩⟩
        rintro rfl
        cases hall
        exact absurd rfl hrest

theorem hexDigits?_isSome_iff :
    ((hexDigits? 0 cs).filter (· < UInt64.size)).isSome ↔ Hexadecimal cs := by
  rw [Option.isSome_iff_exists]
  simp only [Option.filter_eq_some_iff, hexDigits?_eq_some_iff, Nat.zero_mul, Nat.zero_add,
    decide_eq_true_eq]
  constructor
  · rintro ⟨_, ⟨digits, hall, hne, rfl⟩, hlt⟩
    exact ⟨digits, hall, hne, Nat.le_pred_of_lt hlt⟩
  · rintro ⟨digits, hall, hne, hle⟩
    exact ⟨_, ⟨digits, hall, hne, rfl⟩, Nat.lt_of_le_pred (by decide) hle⟩

theorem Hexadecimal.ne_plus (hx : Hexadecimal ('+' :: rest)) : False := by
  obtain ⟨_, hall, -⟩ := hx
  cases hall with
  | cons hd _ =>
    rw [show hexDigit? '+' = none by decide] at hd
    cases hd

theorem hexadecimal?_isSome_iff : (hexadecimal? cs).isSome ↔
    Hexadecimal cs ∨ ∃ digits, cs = '+' :: digits ∧ Hexadecimal digits := by
  unfold hexadecimal?
  split
  · next rest =>
    rw [hexDigits?_isSome_iff]
    exact ⟨fun hx => Or.inr ⟨rest, rfl, hx⟩, fun hx => hx.elim (absurd · Hexadecimal.ne_plus)
      fun ⟨_, hcs, hx⟩ => (List.cons.inj hcs).2 ▸ hx⟩
  · next hplus =>
    rw [hexDigits?_isSome_iff]
    exact (or_iff_left fun ⟨digits, hcs, _⟩ => hplus digits hcs).symm

/-! ## Texts -/

def Marked (cs : List Char) : Prop :=
  ∃ mark rest, cs = '0' :: mark :: rest ∧ (mark = 'x' ∨ mark = 'X')

theorem read_of_mark {mark : Char} (hm : mark = 'x' ∨ mark = 'X') :
    read ('0' :: mark :: rest) ≠ .nan ↔ (hexadecimal? rest).isSome := by
  have hread : read ('0' :: mark :: rest) =
      (hexadecimal? rest).elim .nan fun n => .ofInt n := by
    obtain rfl | rfl := hm <;> rw [read] <;> cases hexadecimal? rest <;> rfl
  rw [hread]
  cases hexadecimal? rest with
  | none => simp
  | some n => simp [Double.ofInt, Double.nearest]

theorem read_of_not_marked (hne : cs ≠ []) (hm : ¬ Marked cs) : read cs =
    if (spanSign cs).2 = "Infinity".toList then .infinity (spanSign cs).1
    else (decimal? (spanSign cs).2).elim .nan fun d => d.nearest (spanSign cs).1 := by
  unfold read
  split
  · exact absurd rfl hne
  · exact absurd ⟨_, _, rfl, Or.inl rfl⟩ hm
  · exact absurd ⟨_, _, rfl, Or.inr rfl⟩ hm
  · dsimp only
    split_ifs
    · rfl
    · cases decimal? (spanSign cs).2 <;> rfl

theorem read_ne_nan_of_not_marked (hne : cs ≠ []) (hm : ¬ Marked cs) : read cs ≠ .nan ↔
    (spanSign cs).2 = "Infinity".toList ∨ (decimal? (spanSign cs).2).isSome := by
  rw [read_of_not_marked hne hm]
  split_ifs with hi
  · simp [hi, Double.infinity]
  · cases decimal? (spanSign cs).2 with
    | none => exact iff_of_false (absurd rfl) fun h => h.elim hi Bool.false_ne_true
    | some d => exact iff_of_true Double.noConfusion (Or.inr rfl)

theorem signed_infinity_iff :
    Signed (· = "Infinity".toList) cs ↔ (spanSign cs).2 = "Infinity".toList :=
  signed_iff fun c rest h => by
    obtain rfl : c = 'I' := (List.cons.inj h).1
    decide

theorem Unsigned.not_marked (hu : Unsigned cs) : ¬ Marked cs := by
  rintro ⟨mark, rest, rfl, hm⟩
  have hmark : mark.isDigit = false ∧ mark ≠ '.' ∧ mark ≠ 'e' ∧ mark ≠ 'E' := by
    obtain rfl | rfl := hm <;> decide
  have hzero : ∀ c ∈ ['0'], c.isDigit = true := fun c hc => List.mem_singleton.mp hc ▸ rfl
  have hspan : spanDigits ('0' :: mark :: rest) = (['0'], mark :: rest) :=
    spanDigits_append hzero fun c hc => Option.some.inj hc ▸ hmark.1
  have hs := decimal?_isSome_iff.mpr hu
  rw [decimal?_isSome_of_ne_point
    fun after h => hmark.2.1 (by rw [hspan] at h; exact (List.cons.inj h).1), hspan] at hs
  obtain h | ⟨mark', rest', h, he, -⟩ := hs.2
  · cases h
  · obtain ⟨rfl, -⟩ := List.cons.inj h
    exact he.elim hmark.2.2.1 hmark.2.2.2

/-- What the reader accepts of trimmed text. -/
theorem read_ne_nan_iff : read cs ≠ .nan ↔ Grammar cs ∨ PlusAfterMark cs := by
  by_cases hmark : Marked cs
  · obtain ⟨mark, rest, rfl, hm⟩ := hmark
    rw [read_of_mark hm, hexadecimal?_isSome_iff]
    constructor
    · rintro (hx | ⟨digits, rfl, hx⟩)
      · exact Or.inl (.hexadecimal hm hx)
      · exact Or.inr ⟨mark, digits, rfl, hm, hx⟩
    · rintro (h | ⟨_, digits, h, -, hx⟩)
      · cases h with
        | infinity hi => exact absurd (signed_infinity_iff.mp hi) (by simp [spanSign])
        | hexadecimal _ hx => exact Or.inl hx
        | decimal hd =>
          have hu : Unsigned ('0' :: mark :: rest) :=
            decimal?_isSome_iff.mp (signed_unsigned_iff.mp hd)
          exact absurd ⟨mark, rest, rfl, hm⟩ hu.not_marked
      · obtain ⟨-, h⟩ := List.cons.inj h
        exact Or.inr ⟨digits, (List.cons.inj h).2, hx⟩
  · by_cases hne : cs = []
    · subst hne
      exact iff_of_true Double.noConfusion (Or.inl .blank)
    rw [read_ne_nan_of_not_marked hne hmark, ← signed_infinity_iff, ← signed_unsigned_iff]
    constructor
    · exact fun h => Or.inl (h.elim .infinity .decimal)
    · rintro (h | ⟨mark, digits, rfl, hm, -⟩)
      · cases h with
        | blank => exact absurd rfl hne
        | infinity hi => exact Or.inl hi
        | hexadecimal hm _ => exact absurd ⟨_, _, rfl, hm⟩ hmark
        | decimal hd => exact Or.inr hd
      · exact absurd ⟨mark, _, rfl, hm⟩ hmark

/-- **The texts that are read as numbers**, blanks around them apart: the numerals of scripts, of which
no text at all is zero, and hexadecimal digits with a plus behind their mark. -/
theorem ofText_ne_nan_iff (text : String) :
    (ofText text ≠ .nan ↔
      Grammar (Text.trim text.toList) ∨ PlusAfterMark (Text.trim text.toList)) ∧
    (Text.trim text.toList = [] → ofText text = .zero false) :=
  ⟨read_ne_nan_iff, fun h => by rw [ofText, h, read]⟩

/-- A numeral has no plus behind the mark, and yet thirty-one is read. -/
theorem ofText_plusAfterMark :
    ofText "0x+1F" = .ofInt 31 ∧ ¬ Grammar (Text.trim "0x+1F".toList) := by
  refine ⟨by decide +kernel, fun h => ?_⟩
  rw [show Text.trim "0x+1F".toList = ['0', 'x', '+', '1', 'F'] by decide +kernel] at h
  cases h with
  | infinity hi => exact absurd (signed_infinity_iff.mp hi) (by decide)
  | hexadecimal _ hx => exact hx.ne_plus
  | decimal hd => exact absurd (signed_unsigned_iff.mp hd) (by decide)

end Numeral

end ScriptCore
