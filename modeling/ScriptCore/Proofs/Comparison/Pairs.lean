import ScriptCore.Proofs.Comparison.Callables
import ScriptCore.Comparison

/-!
# What two values are compared as

One lemma for each way in which the order of two values is decided. The order of the questions
matters: undefined is asked for first, then strings, then numbers, and only then what two objects
are. An object is always level with itself, whatever it is.
-/

namespace ScriptCore

open Comparison (OrdersOn)

namespace Heap

variable {h : Heap} {room : Nat} {a b : Value}

/-! ## What a value is -/

theorem isFunction_iff : h.isFunction a = true ↔ ∃ f, h.callable? a = some f := by
  rw [isFunction, kind?, callable?, beq_iff_eq]
  cases h.objectOf? a with
  | none => simp
  | some o => cases hx : o.exotic <;> simp [Object.kind, Object.callable?, Exotic.kind, hx]

theorem isString_iff : h.isString a = true ↔ ∃ text, h.text? a = some text := by
  rw [isString, kind?, text?, beq_iff_eq]
  cases h.objectOf? a with
  | none => simp
  | some o => cases hx : o.exotic <;> simp [Object.kind, Object.text?, Exotic.kind, hx]

theorem toText_of_text? {text : String} (ha : h.text? a = some text) : h.toText a = text := by
  rw [toText, ha, Option.getD_some]

theorem object_of_bind {α : Type} {read : Object → Option α} {x : α}
    (ha : (h.objectOf? a).bind read = some x) :
    ∃ id o, a = .object id ∧ h.object? id = some o ∧ read o = some x := by
  obtain ⟨o, ho, hx⟩ := Option.bind_eq_some_iff.mp ha
  cases a with
  | object id => exact ⟨id, o, rfl, ho, hx⟩
  | _ => cases ho

theorem object_of_elements? {xs : Array Value} (ha : h.elements? a = some xs) :
    ∃ id o, a = .object id ∧ h.object? id = some o ∧ o.exotic = .array xs := by
  obtain ⟨id, o, rfl, ho, hx⟩ := object_of_bind ha
  refine ⟨id, o, rfl, ho, ?_⟩
  simp only [Object.elements?] at hx
  split at hx
  · next he => rw [he, Option.some.inj hx]
  · cases hx

theorem object_of_callable? {f : Callable} (ha : h.callable? a = some f) :
    ∃ id o, a = .object id ∧ h.object? id = some o ∧ o.exotic = .function f := by
  obtain ⟨id, o, rfl, ho, hf⟩ := object_of_bind ha
  refine ⟨id, o, rfl, ho, ?_⟩
  simp only [Object.callable?] at hf
  split at hf
  · next he => rw [he, Option.some.inj hf]
  · cases hf

theorem isString_of_exotic {id : NodeId} {o : Object} (ho : h.object? id = some o)
    (hx : o.exotic.kind ≠ .string) : h.isString (.object id) = false := by
  rw [isString, kind?, objectOf?, beq_eq_false_iff_ne]
  simpa [Value.id?, ho, Object.kind] using hx

/-! ## Scalars and texts -/

theorem compareWithin_undefined (room : Nat) (ha : a ≠ .undefined) :
    h.compareWithin room .undefined a = .lt ∧ h.compareWithin room a .undefined = .gt := by
  constructor <;> rw [compareWithin] <;> simp [ha]

theorem compareWithin_undefined_self (h : Heap) (room : Nat) :
    h.compareWithin room .undefined .undefined = .eq := by
  rw [compareWithin]
  simp

/-- **A string on either side** makes it a comparison of texts. -/
theorem compareWithin_of_text (ha : a ≠ .undefined) (hb : b ≠ .undefined)
    (hs : h.isString a = true ∨ h.isString b = true) :
    h.compareWithin room a b = Ord.compare (h.toText a) (h.toText b) := by
  rw [compareWithin, if_neg ha, if_neg hb, if_pos (by simpa using hs)]

/-- **Values that count as numbers** are compared as numbers. -/
theorem compareWithin_of_numeric? {x y : Numeric} (ha : a.numeric? = some x)
    (hb : b.numeric? = some y) : h.compareWithin room a b = (x.compare? y).getD .lt := by
  have hscalar {v : Value} {x : Numeric} (hv : v.numeric? = some x) :
      v ≠ .undefined ∧ h.isString v = false := by
    cases v with
    | undefined | object id => cases hv
    | _ => exact ⟨Value.noConfusion, rfl⟩
  have hpair : h.pair a b = .numbers x y := by simp only [pair, ha, hb]
  rw [compareWithin, if_neg (hscalar ha).1, if_neg (hscalar hb).1, (hscalar ha).2, (hscalar hb).2,
    Bool.or_self, if_neg Bool.false_ne_true, hpair]

/-! ## Objects -/

theorem compareWithin_of_objects {x y : NodeId} (hx : h.isString (.object x) = false)
    (hy : h.isString (.object y) = false) :
    h.compareWithin room (.object x) (.object y) =
      match h.pairObjects x y with
      | .numbers x y => (x.compare? y).getD .lt
      | .same => .eq
      | .arrays xs ys =>
        match room with
        | 0 => .lt
        | room + 1 => compareLists (fun x y => h.compareWithin room x y) xs ys
      | .callables f g => f.compare h.places g
      | .unrelated => .lt := by
  rw [compareWithin, if_neg Value.noConfusion, if_neg Value.noConfusion, hx, hy, Bool.or_self,
    if_neg Bool.false_ne_true]
  rfl

/-- **An object is level with itself.** -/
theorem compareWithin_self (h : Heap) (room : Nat) (id : NodeId) :
    h.compareWithin room (.object id) (.object id) = .eq := by
  by_cases hs : h.isString (.object id) = true
  · rw [compareWithin_of_text Value.noConfusion Value.noConfusion (Or.inl hs)]
    exact compare_eq_iff_eq.mpr rfl
  · rw [Bool.not_eq_true] at hs
    rw [compareWithin_of_objects hs hs, pairObjects, if_pos rfl]

/-- **Two functions** are compared as callables. -/
theorem compareWithin_of_callable? {f g : Callable} (ha : h.callable? a = some f)
    (hb : h.callable? b = some g) : h.compareWithin room a b = f.compare h.places g := by
  obtain ⟨x, o, rfl, ho, hf⟩ := object_of_callable? ha
  obtain ⟨y, q, rfl, hq, hg⟩ := object_of_callable? hb
  by_cases hxy : x = y
  · subst hxy
    obtain rfl := Option.some.inj (ho.symm.trans hq)
    obtain rfl := Exotic.function.inj (hf.symm.trans hg)
    rw [compareWithin_self, (Callable.ordersOn_compare h.places).refl trivial]
  · rw [compareWithin_of_objects (isString_of_exotic ho (by simp [hf, Exotic.kind]))
      (isString_of_exotic hq (by simp [hg, Exotic.kind])), pairObjects, if_neg hxy, ho, hq]
    simp only [Option.map_some, hf, hg]

/-- **Two arrays** that are not the same are compared member by member, if there is room. -/
theorem compareWithin_of_elements? {xs ys : Array Value} (ha : h.elements? a = some xs)
    (hb : h.elements? b = some ys) (hne : a ≠ b) :
    h.compareWithin (room + 1) a b = compareLists (h.compareWithin room) xs.toList ys.toList := by
  obtain ⟨x, o, rfl, ho, hx⟩ := object_of_elements? ha
  obtain ⟨y, q, rfl, hq, hy⟩ := object_of_elements? hb
  have hxy : x ≠ y := fun he => hne (congrArg Value.object he)
  rw [compareWithin_of_objects (isString_of_exotic ho (by simp [hx, Exotic.kind]))
    (isString_of_exotic hq (by simp [hy, Exotic.kind])), pairObjects, if_neg hxy, ho, hq]
  simp only [Option.map_some, hx, hy]

end Heap

end ScriptCore
