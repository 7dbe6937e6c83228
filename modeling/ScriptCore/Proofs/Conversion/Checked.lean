import ScriptCore.Proofs.Json.Paths
import ScriptCore.Session.Run

/-!
# Checked conversions

A host type is converted to in two ways, and one is not written in terms of the other. Here they are
compared. A value **suits** a host type (`Heap.Suits`) if it has the type's kind and, for a list, all
its elements suit. The checked conversion succeeds exactly on the values that suit, and comes to what
the lenient one comes to.

When it fails, one value is to blame: the value itself if it has the wrong kind, and otherwise the one
to blame in the first element that does not suit (`Heap.Offends`). The error carries that value, however
deep it stands, and names the type that it should have been.

One element of a list is looked at after the other, so all of this is by induction on the type.
`Heap.check_exact` puts it together.
-/

namespace ScriptCore

/-! ## Lists of results -/

section Results

variable {α β ε : Type} {f : α → Except ε β} {xs : List α}

theorem mapM_eq_ok {g : α → β} (hf : ∀ x ∈ xs, f x = .ok (g x)) : xs.mapM f = .ok (xs.map g) := by
  induction xs with
  | nil => rfl
  | cons x xs ih =>
    rw [List.mapM_cons, hf x List.mem_cons_self, ih fun y hy => hf y (List.mem_cons_of_mem x hy)]
    rfl

/-- **The first error counts**: everything before it has a result. -/
theorem mapM_eq_error_iff {e : ε} : xs.mapM f = .error e ↔
    ∃ before x after, xs = before ++ x :: after ∧ (∀ b ∈ before, ∃ y, f b = .ok y) ∧
      f x = .error e := by
  induction xs with
  | nil =>
    constructor
    · intro he
      cases he
    · rintro ⟨before, x, after, hxs, -⟩
      simp at hxs
  | cons a xs ih =>
    rw [List.mapM_cons]
    cases ha : f a with
    | error e' =>
      constructor
      · intro he
        obtain rfl := Except.error.inj he
        exact ⟨[], a, xs, rfl, by simp, ha⟩
      · rintro ⟨before, x, after, hxs, hbefore, hx⟩
        cases before with
        | nil =>
          obtain ⟨rfl, -⟩ := List.cons.inj hxs
          rw [ha] at hx
          exact congrArg Except.error (Except.error.inj hx)
        | cons b before =>
          obtain ⟨rfl, -⟩ := List.cons.inj hxs
          obtain ⟨y, hy⟩ := hbefore a List.mem_cons_self
          rw [ha] at hy
          cases hy
    | ok y =>
      have hrest : ((xs.mapM f).bind fun ys => Except.ok (y :: ys)) = .error e ↔
          xs.mapM f = .error e := by
        cases xs.mapM f <;> simp [Except.bind]
      refine Iff.trans hrest (ih.trans ?_)
      constructor
      · rintro ⟨before, x, after, rfl, hbefore, hx⟩
        exact ⟨a :: before, x, after, rfl, List.forall_mem_cons.mpr ⟨⟨y, ha⟩, hbefore⟩, hx⟩
      · rintro ⟨before, x, after, hxs, hbefore, hx⟩
        cases before with
        | nil =>
          obtain ⟨rfl, -⟩ := List.cons.inj hxs
          rw [ha] at hx
          cases hx
        | cons b before =>
          obtain ⟨rfl, rfl⟩ := List.cons.inj hxs
          exact ⟨before, x, after, rfl, (List.forall_mem_cons.mp hbefore).2, hx⟩

end Results

/-! ## What a value is converted from -/

/-- How an error names a host type, if there are values that do not convert to it. -/
def Target.word? : Target → Option String
  | .any | .boolean | .text => none
  | .double => some "f64"
  | .int64 => some "i64"
  | .int32 => some "i32"
  | .uint32 => some "u32"
  | .size => some "usize"
  | .object => some "object"
  | .optionalObject => some "object or null"
  | .list _ => some "array"

/-- A number among the scalars whose whole part lies between two bounds. -/
def Value.IsWholeWithin (v : Value) (least greatest : Int) : Prop :=
  ∃ n, v.numeric? = some n ∧ least ≤ n.toInt64.toInt ∧ n.toInt64.toInt ≤ greatest

namespace Heap

variable {h : Heap} {v w : Value} {target : Target} {word : String} {x : Converted} {e : Error}
  {n : Numeric}

/-- Whether a value by itself has the kind of a host type. -/
def HasKind (h : Heap) (v : Value) : Target → Prop
  | .any | .boolean | .text => True
  | .double | .int64 => ∃ n, v.numeric? = some n
  | .int32 => v.IsWholeWithin (-2 ^ 31) (2 ^ 31 - 1)
  | .uint32 => v.IsWholeWithin 0 (2 ^ 32 - 1)
  | .size => v.IsWholeWithin 0 (2 ^ 64 - 1)
  | .object => ∃ id, v = .object id
  | .optionalObject => v = .null ∨ v = .undefined ∨ ∃ id, v = .object id
  | .list _ => ∃ elements, h.elements? v = some elements

/-- A value **suits** a host type: it has the type's kind, and so have the elements of a list. -/
def Suits (h : Heap) : Target → Value → Prop
  | .list of, v => ∃ elements, h.elements? v = some elements ∧ ∀ e ∈ elements.toList, h.Suits of e
  | target, v => h.HasKind v target

/-- The value to blame when `v` is not converted, and the name of the type that it should have been. -/
inductive Offends (h : Heap) : Target → Value → Value → String → Prop
  | itself {target : Target} {v : Value} {word : String} (hw : target.word? = some word)
      (hv : ¬h.HasKind v target) : Offends h target v v word
  | element {of : Target} {v w x : Value} {word : String} {elements : Array Value}
      {before after : List Value} (he : h.elements? v = some elements)
      (hs : elements.toList = before ++ x :: after) (hb : ∀ b ∈ before, h.Suits of b)
      (hx : Offends h of x w word) : Offends h (.list of) v w word

/-! ## Numbers among the scalars -/

theorem toNumber_of_numeric? (hn : v.numeric? = some n) : h.toNumber v = n.toDouble := by
  cases v with
  | undefined => cases hn
  | object id => cases hn
  | _ =>
    rw [toNumber, hn]
    rfl

/-- Null and truth values are whole numbers as doubles too. -/
theorem toInteger_of_numeric? (hn : v.numeric? = some n) : h.toInteger v = n.toInt64 := by
  have hzero : (Double.ofInt 0).toInt64 = 0 := by decide +kernel
  have hone : (Double.ofInt 1).toInt64 = 1 := by decide +kernel
  cases v with
  | undefined => cases hn
  | object id => cases hn
  | integer m =>
    obtain rfl := Option.some.inj hn
    rfl
  | null =>
    rw [toInteger, toNumber_of_numeric? hn]
    · obtain rfl := Option.some.inj hn
      exact hzero
    · intro m hm
      cases hm
  | double d =>
    rw [toInteger, toNumber_of_numeric? hn]
    · obtain rfl := Option.some.inj hn
      rfl
    · intro m hm
      cases hm
  | boolean b =>
    rw [toInteger, toNumber_of_numeric? hn]
    · obtain rfl := Option.some.inj hn
      cases b
      · exact hzero
      · exact hone
    · intro m hm
      cases hm

theorem toInt_toInt32_of_le {i : Int64} (hl : -2 ^ 31 ≤ i.toInt) (hg : i.toInt ≤ 2 ^ 31 - 1) :
    i.toInt32.toInt = i.toInt := by
  rw [Int64.toInt_toInt32]
  apply Int.bmod_eq_of_le <;> omega

theorem toNat_toUInt32_of_le {i : Int64} (hl : 0 ≤ i.toInt) (hg : i.toInt ≤ 2 ^ 32 - 1) :
    (i.toUInt64.toUInt32.toNat : Int) = i.toInt := by
  have hbits : (i.toUInt64.toNat : Int) = i.toInt := by
    have hlt := i.toUInt64.toNat_lt
    have hcond := BitVec.toInt_eq_toNat_cond i.toBitVec
    rw [Int64.toInt_toBitVec] at hcond
    rw [← UInt64.toNat_toBitVec, Int64.toBitVec_toUInt64]
    split at hcond <;> omega
  rw [UInt64.toNat_toUInt32]
  omega

theorem checkedWithin_of_numeric? (hn : v.numeric? = some n) (word : String) (least greatest : Int) :
    checkedWithin v word least greatest =
      if least ≤ n.toInt64.toInt ∧ n.toInt64.toInt ≤ greatest then .ok (.integer n.toInt64.toInt)
      else .error (.invalidConversion v word) := by
  rw [checkedWithin, checkedInteger, hn]
  rfl

theorem checkedWithin_of_not_isWholeWithin {least greatest : Int} (word : String)
    (hv : ¬v.IsWholeWithin least greatest) :
    checkedWithin v word least greatest = .error (.invalidConversion v word) := by
  cases hn : v.numeric? with
  | none =>
    rw [checkedWithin, checkedInteger, hn]
    rfl
  | some n =>
    rw [checkedWithin_of_numeric? hn]
    apply if_neg
    intro hb
    exact hv ⟨n, hn, hb⟩

/-! ## One value -/

/-- A type's kind is all that is asked of a value, lists apart. -/
theorem check_of_hasKind (hl : ∀ of, target ≠ .list of) (hk : h.HasKind v target) :
    h.check target v = .ok (h.convert target v) := by
  cases target with
  | any | boolean | text => rfl
  | list of => exact absurd rfl (hl of)
  | double =>
    obtain ⟨n, hn⟩ := hk
    rw [check, checkedDouble, convert, hn, toNumber_of_numeric? hn]
    rfl
  | int64 =>
    obtain ⟨n, hn⟩ := hk
    rw [check, checkedInteger, convert, hn, toInteger_of_numeric? hn]
    rfl
  | int32 =>
    obtain ⟨n, hn, hl, hg⟩ := hk
    rw [check, convert, toInteger_of_numeric? hn, toInt_toInt32_of_le hl hg]
    exact (checkedWithin_of_numeric? hn ..).trans (if_pos ⟨hl, hg⟩)
  | uint32 =>
    obtain ⟨n, hn, hl, hg⟩ := hk
    rw [check, convert, toInteger_of_numeric? hn, toNat_toUInt32_of_le hl hg]
    exact (checkedWithin_of_numeric? hn ..).trans (if_pos ⟨hl, hg⟩)
  | size =>
    obtain ⟨n, hn, hl, hg⟩ := hk
    rw [check, convert, toInteger_of_numeric? hn, max_eq_right hl]
    exact (checkedWithin_of_numeric? hn ..).trans (if_pos ⟨hl, hg⟩)
  | object =>
    obtain ⟨id, rfl⟩ := hk
    rfl
  | optionalObject => obtain rfl | rfl | ⟨id, rfl⟩ := hk <;> rfl

/-- **A value of the wrong kind** is carried by the error. -/
theorem check_of_not_hasKind (hw : target.word? = some word) (hk : ¬h.HasKind v target) :
    h.check target v = .error (.invalidConversion v word) := by
  cases target with
  | any | boolean | text => cases hw
  | double =>
    obtain rfl := Option.some.inj hw
    rw [check, checkedDouble, Option.eq_none_iff_forall_ne_some.mpr (not_exists.mp hk)]
    rfl
  | int64 =>
    obtain rfl := Option.some.inj hw
    rw [check, checkedInteger, Option.eq_none_iff_forall_ne_some.mpr (not_exists.mp hk)]
    rfl
  | int32 | uint32 | size =>
    obtain rfl := Option.some.inj hw
    exact checkedWithin_of_not_isWholeWithin _ hk
  | object =>
    obtain rfl := Option.some.inj hw
    cases v with
    | object id => exact absurd ⟨id, rfl⟩ hk
    | _ => rfl
  | optionalObject =>
    obtain rfl := Option.some.inj hw
    cases v with
    | null => exact absurd (Or.inl rfl) hk
    | undefined => exact absurd (Or.inr (Or.inl rfl)) hk
    | object id => exact absurd (Or.inr (Or.inr ⟨id, rfl⟩)) hk
    | _ => rfl
  | list of =>
    obtain rfl := Option.some.inj hw
    rw [check, Option.eq_none_iff_forall_ne_some.mpr (not_exists.mp hk)]

theorem exists_word_of_not_hasKind (hk : ¬h.HasKind v target) : ∃ word, target.word? = some word := by
  cases target with
  | any | boolean | text => exact absurd trivial hk
  | _ => exact ⟨_, rfl⟩

/-! ## Lists, and types in general -/

theorem check_list (of : Target) {elements : Array Value} (he : h.elements? v = some elements) :
    h.check (.list of) v = (elements.toList.mapM fun e => h.check of e).map .list := by
  rw [check, he]

/-- **What suits** is converted, and leniently to the same. -/
theorem check_of_suits (target : Target) : ∀ v : Value, h.Suits target v →
    h.check target v = .ok (h.convert target v) := by
  induction target with
  | list of ih =>
    intro v hv
    obtain ⟨elements, he, hall⟩ := hv
    rw [check_list of he, mapM_eq_ok fun e hm => ih e (hall e hm), convert, he]
    rfl
  | _ =>
    intro v hv
    apply check_of_hasKind
    · intro of ht
      cases ht
    · exact hv

/-- **What is converted** suits. -/
theorem suits_of_check (target : Target) : ∀ (v : Value) (x : Converted), h.check target v = .ok x →
    h.Suits target v := by
  induction target with
  | list of ih =>
    intro v x hx
    cases he : h.elements? v with
    | none =>
      rw [check, he] at hx
      cases hx
    | some elements =>
      rw [check_list of he] at hx
      obtain ⟨xs, hxs, -⟩ := ok_of_map hx
      refine ⟨elements, he, ?_⟩
      intro e hm
      obtain ⟨y, hy⟩ := ok_of_mem_of_mapM hxs e hm
      exact ih e y hy
  | _ =>
    intro v x hx
    by_contra hv
    obtain ⟨word, hw⟩ := exists_word_of_not_hasKind hv
    rw [check_of_not_hasKind hw hv] at hx
    cases hx

theorem exists_check_eq_ok_iff : (∃ x, h.check target v = .ok x) ↔ h.Suits target v := by
  constructor
  · rintro ⟨x, hx⟩
    exact suits_of_check target v x hx
  · intro hv
    exact ⟨_, check_of_suits target v hv⟩

/-- **A list fails** as a whole if it is none, and with its first element that fails otherwise. -/
theorem check_list_eq_error_iff {of : Target} : h.check (.list of) v = .error e ↔
    (h.elements? v = none ∧ e = .invalidConversion v "array") ∨
    ∃ elements before x after, h.elements? v = some elements ∧
      elements.toList = before ++ x :: after ∧ (∀ b ∈ before, h.Suits of b) ∧
      h.check of x = .error e := by
  cases he : h.elements? v with
  | none =>
    rw [check, he]
    simp [eq_comm]
  | some elements =>
    have hmap : (elements.toList.mapM fun a => h.check of a).map Converted.list = .error e ↔
        (elements.toList.mapM fun a => h.check of a) = .error e := by
      cases elements.toList.mapM fun a => h.check of a <;> simp [Except.map]
    rw [check_list of he, hmap, mapM_eq_error_iff]
    simp [exists_check_eq_ok_iff]

theorem check_eq_error_iff_of_ne_list (hl : ∀ of, target ≠ .list of) : h.check target v = .error e ↔
    ∃ w word, e = .invalidConversion w word ∧ h.Offends target v w word := by
  constructor
  · intro he
    by_cases hv : h.HasKind v target
    · rw [check_of_hasKind hl hv] at he
      cases he
    · obtain ⟨word, hw⟩ := exists_word_of_not_hasKind hv
      rw [check_of_not_hasKind hw hv] at he
      exact ⟨v, word, (Except.error.inj he).symm, .itself hw hv⟩
  · rintro ⟨w, word, rfl, ho⟩
    cases ho with
    | itself hw hv => exact check_of_not_hasKind hw hv
    | element => exact absurd rfl (hl _)

/-- **The value to blame** is in the error. -/
theorem check_eq_error_iff (target : Target) : ∀ (v : Value) (e : Error),
    h.check target v = .error e ↔
      ∃ w word, e = .invalidConversion w word ∧ h.Offends target v w word := by
  induction target with
  | list of ih =>
    intro v e
    rw [check_list_eq_error_iff]
    constructor
    · rintro (⟨hnone, rfl⟩ | ⟨elements, before, x, after, he, hs, hb, hx⟩)
      · refine ⟨v, "array", rfl, .itself rfl ?_⟩
        rintro ⟨elements, he⟩
        rw [hnone] at he
        cases he
      · obtain ⟨w, word, rfl, ho⟩ := (ih x e).mp hx
        exact ⟨w, word, rfl, .element he hs hb ho⟩
    · rintro ⟨w, word, rfl, ho⟩
      cases ho with
      | itself hw hv =>
        obtain rfl := Option.some.inj hw
        exact Or.inl ⟨Option.eq_none_iff_forall_ne_some.mpr (not_exists.mp hv), rfl⟩
      | element he hs hb hx =>
        exact Or.inr ⟨_, _, _, _, he, hs, hb, (ih _ _).mpr ⟨w, word, rfl, hx⟩⟩
  | _ =>
    intro v e
    apply check_eq_error_iff_of_ne_list
    intro of ht
    cases ht

/-- **Checked conversions.** A value is converted exactly if it suits the host type, and then to what
the lenient conversion gives. A list is not converted if the value is no array, which the error carries,
or else because of its first element that is not converted, with the error of that element. And every
error carries the value to blame, however deep in nested lists it stands. -/
theorem check_exact (h : Heap) (target : Target) (v : Value) :
    (∀ x, h.check target v = .ok x ↔ h.Suits target v ∧ h.convert target v = x) ∧
    (∀ e, h.check (.list target) v = .error e ↔
      (h.elements? v = none ∧ e = .invalidConversion v "array") ∨
      ∃ elements before x after, h.elements? v = some elements ∧
        elements.toList = before ++ x :: after ∧ (∀ b ∈ before, h.Suits target b) ∧
        h.check target x = .error e) ∧
    (∀ e, h.check target v = .error e ↔
      ∃ w word, e = .invalidConversion w word ∧ h.Offends target v w word) := by
  refine ⟨fun x => ?_, fun e => check_list_eq_error_iff, check_eq_error_iff target v⟩
  constructor
  · intro hx
    have hs := suits_of_check target v x hx
    rw [check_of_suits target v hs] at hx
    exact ⟨hs, Except.ok.inj hx⟩
  · rintro ⟨hs, rfl⟩
    exact check_of_suits target v hs

/-- A heap with rows of numbers, one of which is written as text, and with a number for a row. -/
def mixedRows : Heap :=
  (Session.initial.run [⟨.store (.keep (.array
    [.array [.integer 1, .integer 2], .array [.integer 3, .text "x"], .integer 5])),
    some "rows", none⟩]).2.heap

/-- As rows of integers they fail with the text, which stands before the number that is no row. The
first row by itself is converted. -/
theorem check_exact_mixedRows :
    mixedRows.check (.list (.list .int64)) (.object 7) = .error (.invalidConversion (.object 5) "i64") ∧
    mixedRows.check (.list .int64) (.object 4) = .ok (.list [.integer 1, .integer 2]) := by
  have houter : mixedRows.elements? (.object 7) = some #[.object 4, .object 6, .integer 5] := by
    decide +kernel
  have hfirst : mixedRows.elements? (.object 4) = some #[.integer 1, .integer 2] := by decide +kernel
  have hsecond : mixedRows.elements? (.object 6) = some #[.integer 3, .object 5] := by decide +kernel
  have hsuits : mixedRows.Suits (.list .int64) (.object 4) := by
    refine ⟨_, hfirst, ?_⟩
    intro e he
    simp only [List.mem_cons, List.not_mem_nil, or_false] at he
    obtain rfl | rfl := he
    · exact ⟨_, rfl⟩
    · exact ⟨_, rfl⟩
  refine ⟨((check_exact mixedRows _ (.object 7)).2.2 _).mpr ⟨.object 5, "i64", rfl, ?_⟩,
    ((check_exact mixedRows _ (.object 4)).1 _).mpr ⟨hsuits, ?_⟩⟩
  · refine .element houter (show _ = [.object 4] ++ .object 6 :: [.integer 5] from rfl) ?_
      (.element hsecond (show _ = [.integer 3] ++ .object 5 :: [] from rfl) ?_ (.itself rfl ?_))
    · intro b hb
      obtain rfl := List.mem_singleton.mp hb
      exact hsuits
    · intro b hb
      obtain rfl := List.mem_singleton.mp hb
      exact ⟨_, rfl⟩
    · rintro ⟨n, hn⟩
      cases hn
  · rw [convert, hfirst]
    rfl

end Heap

end ScriptCore
