import ScriptCore.Comparison
import ScriptCore.Conversion
import ScriptCore.Json.Bridge
import ScriptCore.Operator
import ScriptCore.Proofs.Agreement.Reading
import ScriptCore.Proofs.Comparison.Sorting
import ScriptCore.Session.Snapshot

/-!
# Showing and comparing values on heaps that match

Values that can be seen are written out, compared, converted and shown alike on two heaps that match.
What goes into containers does so by induction on the room that is left, each step by way of the
elements.
-/

namespace ScriptCore

namespace Heap

/-- **Values are written out alike** on two heaps if whatever is met on the way is the same on both. -/
theorem render_congr {h k : Heap} {P : Value → Prop}
    (hP : ∀ id, P (.object id) → ∃ o, h.object? id = some o ∧ k.object? id = some o ∧
      (∀ e ∈ o.fields.values, P e) ∧
      ∀ elements, o.exotic = .array elements → ∀ e ∈ elements.toList, P e) (room : Nat) :
    ∀ (enclosing : List NodeId) (nested : Bool) (v : Value), P v →
      k.render room enclosing nested v = h.render room enclosing nested v := by
  have hstep (room : Nat)
      (hmembers : ∀ less, room = less + 1 → ∀ (enclosing : List NodeId) (nested : Bool) (v : Value),
        P v → k.render less enclosing nested v = h.render less enclosing nested v)
      (enclosing : List NodeId) (nested : Bool) (v : Value) (hv : P v) :
      k.render room enclosing nested v = h.render room enclosing nested v := by
    cases v with
    | object id =>
      obtain ⟨o, ho, hk, hfields, helements⟩ := hP id hv
      rw [render, render, hk, ho]
      dsimp only
      cases he : o.exotic with
      | string text => rfl
      | function f => rfl
      | array elements =>
        cases room with
        | zero => rfl
        | succ room =>
          refine if_congr Iff.rfl rfl (congrArg Display.array (List.map_congr_left fun e hm => ?_))
          exact hmembers room rfl _ _ e (helements elements he e hm)
      | ordinary =>
        cases room with
        | zero => rfl
        | succ room =>
          refine if_congr Iff.rfl rfl (congrArg Display.object (List.map_congr_left fun e hm => ?_))
          refine congrArg (e.1, ·) (hmembers room rfl _ _ e.2 (hfields _ ?_))
          exact Fields.mem_values_iff.mpr ⟨e.1, hm⟩
    | _ => simp only [render]
  induction room with
  | zero => exact hstep 0 fun less hl => by omega
  | succ room ih =>
    refine hstep (room + 1) fun less hl => ?_
    obtain rfl : room = less := by omega
    exact ih

namespace Matches

variable {h k : Heap} {links : List Link} {v w : Value} (ha : Matches links h k)

include ha

/-! ## Text -/

theorem render_eq (room : Nat) (enclosing : List NodeId) (nested : Bool) (v : Value)
    (hv : h.SeesValue links v) :
    k.render room enclosing nested v = h.render room enclosing nested v :=
  render_congr (P := h.SeesValue links) (fun id hv => by
    obtain ⟨o, ho⟩ := ha.exists_object hv.object
    exact ⟨o, ho, (ha.object?_eq hv.object).trans ho, fun e hm => hv.object.field ho hm,
      fun elements he e hm => hv.object.element ho he hm⟩) room enclosing nested v hv

theorem display_eq (hv : h.SeesValue links v) : k.display v = h.display v := by
  rw [display, display, ha.displayDepth]
  exact ha.render_eq _ _ _ v hv

theorem displayNested_eq (hv : h.SeesValue links v) : k.displayNested v = h.displayNested v := by
  rw [displayNested, displayNested, ha.displayDepth]
  exact ha.render_eq _ _ _ v hv

theorem toText_eq (hv : h.SeesValue links v) : k.toText v = h.toText v := by
  rw [toText, toText, ha.text?_eq hv, ha.display_eq hv]

theorem typeName_eq (hv : h.SeesValue links v) : k.typeName v = h.typeName v := by
  cases v with
  | object id => rw [typeName, typeName, ha.kind?_eq hv]
  | _ => rfl

theorem message_eq {e : Error} (he : ∀ v, e.value? = some v → h.SeesValue links v) :
    e.message k = e.message h := by
  cases e with
  | invalidConversion v target =>
    show "InvalidConversion: cannot convert " ++ k.typeName v ++ " \x60" ++ k.display v ++
      "\x60 to " ++ target = _
    rw [ha.typeName_eq (he _ rfl), ha.display_eq (he _ rfl)]
    rfl
  | notCallable v =>
    show "TypeError: " ++ k.display v ++ " is not a function" = _
    rw [ha.display_eq (he _ rfl)]
    rfl
  | thrown v =>
    show "Uncaught " ++ k.display v = _
    rw [ha.display_eq (he _ rfl)]
    rfl
  | _ => rfl

/-! ## Equality and order -/

theorem pair_eq (hv : h.SeesValue links v) (hw : h.SeesValue links w) : k.pair v w = h.pair v w := by
  have hobjects (a b : NodeId) (hva : v = .object a) (hwb : w = .object b) :
      k.pairObjects a b = h.pairObjects a b := by
    subst hva hwb
    rw [pairObjects, pairObjects, ha.object?_eq hv.object, ha.object?_eq hw.object]
  simp only [pair]
  split
  · rfl
  · split
    · exact hobjects _ _ rfl rfl
    · rfl

omit ha in
/-- The elements of arrays that are paired can be seen. -/
theorem sees_arrays (hv : h.SeesValue links v) (hw : h.SeesValue links w) {xs ys : List Value}
    (hp : h.pair v w = .arrays xs ys) :
    (∀ x ∈ xs, h.SeesValue links x) ∧ ∀ y ∈ ys, h.SeesValue links y := by
  cases v with
  | object a =>
    cases w with
    | object b =>
      have hp : h.pairObjects a b = .arrays xs ys := hp
      rw [pairObjects] at hp
      split at hp
      · cases hp
      · split at hp
        · next hx hy =>
          obtain ⟨o, ho, hx⟩ := Option.map_eq_some_iff.mp hx
          obtain ⟨q, hq, hy⟩ := Option.map_eq_some_iff.mp hy
          obtain ⟨rfl, rfl⟩ := Comparison.Pairing.arrays.inj hp
          exact ⟨fun x hm => hv.object.element ho hx hm, fun y hm => hw.object.element hq hy hm⟩
        · cases hp
        · cases hp
    | _ => simp [pair, Value.numeric?] at hp
  | _ => cases w <;> simp [pair, Value.numeric?] at hp

theorem looseEqualsWithin_of_elements {room : Nat}
    (helements : ∀ less, room = less + 1 → ∀ v w : Value, h.SeesValue links v →
      h.SeesValue links w → k.looseEqualsWithin less v w = h.looseEqualsWithin less v w)
    (hv : h.SeesValue links v) (hw : h.SeesValue links w) :
    k.looseEqualsWithin room v w = h.looseEqualsWithin room v w := by
  rw [looseEqualsWithin, looseEqualsWithin, ha.isString_eq hv, ha.isString_eq hw, ha.toText_eq hv,
    ha.toText_eq hw, ha.pair_eq hv hw]
  refine if_congr Iff.rfl rfl (if_congr Iff.rfl rfl ?_)
  cases hp : h.pair v w with
  | arrays xs ys =>
    cases room with
    | zero => rfl
    | succ room =>
      obtain ⟨hxs, hys⟩ := sees_arrays hv hw hp
      refine congrArg (xs.length == ys.length && ·) (Bool.eq_iff_iff.mpr ?_)
      rw [List.all_eq_true, List.all_eq_true]
      refine forall₂_congr fun p hm => ?_
      dsimp only
      rw [helements room rfl p.1 p.2 (hxs _ (List.of_mem_zip hm).1) (hys _ (List.of_mem_zip hm).2)]
  | callables f g =>
    rw [Bool.eq_iff_iff, beq_iff_eq, beq_iff_eq]
    exact Callable.compare_eq_eq_congr k.places h.places
  | _ => rfl

theorem looseEqualsWithin_eq (room : Nat) : ∀ v w : Value, h.SeesValue links v →
    h.SeesValue links w → k.looseEqualsWithin room v w = h.looseEqualsWithin room v w := by
  induction room with
  | zero =>
    intro v w hv hw
    exact ha.looseEqualsWithin_of_elements (fun less hl => by omega) hv hw
  | succ room ih =>
    intro v w hv hw
    refine ha.looseEqualsWithin_of_elements (fun less hl => ?_) hv hw
    obtain rfl : room = less := by omega
    exact ih

theorem looseEquals_eq (hv : h.SeesValue links v) (hw : h.SeesValue links w) :
    k.looseEquals v w = h.looseEquals v w := by
  rw [looseEquals, looseEquals]
  exact ha.looseEqualsWithin_eq Comparison.maxDepth v w hv hw

omit ha in
theorem compareLists_congr {α β : Type} {f g : α → β → Ordering} {xs : List α} {ys : List β}
    (he : ∀ x ∈ xs, ∀ y ∈ ys, f x y = g x y) : compareLists f xs ys = compareLists g xs ys := by
  induction xs generalizing ys with
  | nil => cases ys <;> rfl
  | cons x xs ih =>
    cases ys with
    | nil => rfl
    | cons y ys =>
      rw [compareLists, compareLists, he x (List.mem_cons_self ..) y (List.mem_cons_self ..),
        ih fun a hx b hy => he a (List.mem_cons_of_mem x hx) b (List.mem_cons_of_mem y hy)]

variable (hplaces : k.places = h.places)

include hplaces

theorem compareWithin_of_elements {room : Nat}
    (helements : ∀ less, room = less + 1 → ∀ v w : Value, h.SeesValue links v →
      h.SeesValue links w → k.compareWithin less v w = h.compareWithin less v w)
    (hv : h.SeesValue links v) (hw : h.SeesValue links w) :
    k.compareWithin room v w = h.compareWithin room v w := by
  rw [compareWithin, compareWithin, ha.isString_eq hv, ha.isString_eq hw, ha.toText_eq hv,
    ha.toText_eq hw, ha.pair_eq hv hw]
  refine if_congr Iff.rfl rfl (if_congr Iff.rfl rfl (if_congr Iff.rfl rfl ?_))
  cases hp : h.pair v w with
  | arrays xs ys =>
    cases room with
    | zero => rfl
    | succ room =>
      obtain ⟨hxs, hys⟩ := sees_arrays hv hw hp
      exact compareLists_congr fun x hx y hy => helements room rfl x y (hxs x hx) (hys y hy)
  | callables f g => rw [hplaces]
  | _ => rfl

theorem compareWithin_eq (room : Nat) : ∀ v w : Value, h.SeesValue links v →
    h.SeesValue links w → k.compareWithin room v w = h.compareWithin room v w := by
  induction room with
  | zero =>
    intro v w hv hw
    exact ha.compareWithin_of_elements hplaces (fun less hl => by omega) hv hw
  | succ room ih =>
    intro v w hv hw
    refine ha.compareWithin_of_elements hplaces (fun less hl => ?_) hv hw
    obtain rfl : room = less := by omega
    exact ih

theorem compare_eq (hv : h.SeesValue links v) (hw : h.SeesValue links w) :
    k.compare v w = h.compare v w := by
  rw [compare, compare]
  exact ha.compareWithin_eq hplaces Comparison.maxDepth v w hv hw

theorem sorted_eq {vs : List Value} (hvs : ∀ v ∈ vs, h.SeesValue links v) :
    k.sorted vs = h.sorted vs ∧ ∀ v ∈ h.sorted vs, h.SeesValue links v := by
  refine ⟨Comparison.sort_congr fun x hx y hy => ?_, fun v hm => ?_⟩
  · rw [ha.compare_eq hplaces (hvs x hx) (hvs y hy)]
  · exact hvs v ((Comparison.perm_sort _ vs).mem_iff.mp hm)

omit hplaces

theorem hashFeed_eq (hv : h.SeesValue links v) : k.hashFeed v = h.hashFeed v := by
  cases v with
  | object id => rw [hashFeed, hashFeed, ha.text?_eq hv]
  | _ => rfl

/-! ## Operators and conversions -/

theorem binary_eq (op : BinaryOp) (hv : h.SeesValue links v) (hw : h.SeesValue links w) :
    k.binary op v w = h.binary op v w := by
  rw [binary, binary, joinsText, joinsText, ha.isString_eq hv, ha.isString_eq hw, ha.toText_eq hv,
    ha.toText_eq hw]

theorem truth_eq (hv : h.SeesValue links v) : k.truth v = h.truth v := by
  rw [truth, truth, ha.text?_eq hv]

theorem toNumber_eq (hv : h.SeesValue links v) : k.toNumber v = h.toNumber v := by
  rw [toNumber, toNumber, ha.text?_eq hv]

theorem toInteger_eq (hv : h.SeesValue links v) : k.toInteger v = h.toInteger v := by
  cases v with
  | integer n => rfl
  | _ => simp only [toInteger, ha.toNumber_eq hv]

omit ha in
theorem sees_elements? (hv : h.SeesValue links v) {elements : Array Value}
    (he : h.elements? v = some elements) : ∀ e ∈ elements.toList, h.SeesValue links e := by
  intro e hm
  obtain ⟨o, ho, helems⟩ := Option.bind_eq_some_iff.mp he
  cases v with
  | object id =>
    have ho : h.object? id = some o := ho
    simp only [Object.elements?] at helems
    split at helems
    · next hx =>
      obtain rfl := Option.some.inj helems
      exact hv.object.element ho hx hm
    · cases helems
  | _ => cases ho

theorem convert_eq (target : Target) : ∀ v : Value, h.SeesValue links v →
    k.convert target v = h.convert target v := by
  induction target with
  | list of ih =>
    intro v hv
    rw [convert, convert, ha.elements?_eq hv]
    refine congrArg Converted.list (List.map_congr_left fun e hm => ih e ?_)
    cases he : h.elements? v with
    | none => simp [he] at hm
    | some elements => exact sees_elements? hv he e (by simpa [he] using hm)
  | boolean =>
    intro v hv
    rw [convert, convert, ha.truth_eq hv]
  | double =>
    intro v hv
    rw [convert, convert, ha.toNumber_eq hv]
  | text =>
    intro v hv
    rw [convert, convert, ha.toText_eq hv]
  | int64 | int32 | uint32 | size =>
    intro v hv
    rw [convert, convert, ha.toInteger_eq hv]
  | any | object | optionalObject => exact fun _ _ => rfl

end Matches

end Heap

end ScriptCore
