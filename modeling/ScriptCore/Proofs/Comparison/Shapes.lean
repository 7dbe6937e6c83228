import ScriptCore.Proofs.Comparison.Pairs
import ScriptCore.Proofs.Comparison.Sorting
import ScriptCore.Session.Run

/-!
# Values of one shape

Values are of one **shape** if they are undefined, or leaves of one class inside equally many arrays
(`Heap.Shaped`). As leaves count integers with what else counts as one, or strings, or functions. As
long as the arrays are no deeper inside one another than comparison follows them, values of one
shape are in order (`Heap.ordersOn_shaped`), by induction on the depth: leaves by what they are
compared as, arrays member by member, and undefined before all of them. So they are sorted, and ties
stay in the order they were in: `Heap.compare_shaped`.

Deeper arrays count as less both ways round.
-/

namespace ScriptCore

open Comparison (OrdersOn)

namespace Comparison

variable {α : Type} {cmp : α → α → Ordering} {P : α → Prop} {xs : List α}

theorem OrdersOn.weakOrderOn (ho : OrdersOn cmp P) (hx : ∀ x ∈ xs, P x) :
    WeakOrderOn (fun a b => cmp a b == .lt) xs where
  asymm a ha b hb hlt := by
    rw [ho.swap (hx a ha) (hx b hb), beq_iff_eq.mp hlt]
    rfl
  trans a ha b hb c hc hab hbc := by
    rw [beq_eq_false_iff_ne] at hab hbc ⊢
    rw [← ho.ne_gt_swap_iff (hx a ha) (hx b hb)] at hab
    rw [← ho.ne_gt_swap_iff (hx b hb) (hx c hc)] at hbc
    rw [← ho.ne_gt_swap_iff (hx a ha) (hx c hc)]
    exact ho.trans (hx c hc) (hx b hb) (hx a ha) hbc hab

theorem OrdersOn.ordered_iff (ho : OrdersOn cmp P) (hx : ∀ x ∈ xs, P x) :
    Ordered (fun a b => cmp a b == .lt) xs ↔ xs.Pairwise (cmp · · ≠ .gt) :=
  List.Pairwise.iff_of_mem fun ha hb => by
    rw [beq_eq_false_iff_ne, ← ho.ne_gt_swap_iff (hx _ hb) (hx _ ha)]

theorem OrdersOn.level_eq (ho : OrdersOn cmp P) {a b : α} (ha : P a) (hb : P b) :
    level (fun a b => cmp a b == .lt) a b = (cmp a b == .eq) := by
  rw [level, ho.swap ha hb]
  cases cmp a b <;> rfl

end Comparison

open Comparison (WeakOrderOn Ordered)

/-- What stands inside the arrays of a shape. -/
inductive Leaf where
  | integer
  | string
  | function

namespace Leaf

/-- Whether a value is a leaf of a class. Undefined is one of each; null and booleans count as
integers. -/
def admits (h : Heap) (leaf : Leaf) (v : Value) : Bool :=
  match leaf, v with
  | _, .undefined => true
  | .integer, .null | .integer, .boolean _ | .integer, .integer _ => true
  | .string, v => h.isString v
  | .function, v => h.isFunction v
  | _, _ => false

end Leaf

namespace Heap

variable {h : Heap} {leaf : Leaf} {depth room : Nat} {v : Value}

/-- Values of one **shape**: undefined, or leaves of one class inside so many arrays. -/
def Shaped (h : Heap) (leaf : Leaf) : Nat → Value → Prop
  | 0, v => leaf.admits h v = true
  | depth + 1, v =>
    v = .undefined ∨ ∃ xs, h.elements? v = some xs ∧ ∀ x ∈ xs.toList, h.Shaped leaf depth x

instance decidableShaped (h : Heap) (leaf : Leaf) : ∀ depth, DecidablePred (h.Shaped leaf depth)
  | 0, v => inferInstanceAs (Decidable (leaf.admits h v = true))
  | depth + 1, v =>
    have := decidableShaped h leaf depth
    match hx : h.elements? v with
    | some xs => decidable_of_iff (v = .undefined ∨ ∀ x ∈ xs.toList, h.Shaped leaf depth x) (by
        simp [Shaped, hx])
    | none => decidable_of_iff (v = .undefined) (by simp [Shaped, hx])

theorem leaf_cases (hv : leaf.admits h v = true) :
    v = .undefined ∨ match leaf with
      | .integer => ∃ n, v.numeric? = some (.integer n)
      | .string => ∃ text, h.text? v = some text
      | .function => ∃ f, h.callable? v = some f := by
  by_cases hu : v = .undefined
  · exact Or.inl hu
  refine Or.inr ?_
  cases leaf with
  | integer =>
    cases v with
    | undefined => exact absurd rfl hu
    | null => exact ⟨0, rfl⟩
    | boolean b => exact ⟨_, rfl⟩
    | integer n => exact ⟨n, rfl⟩
    | double | object => exact absurd hv Bool.false_ne_true
  | string => exact isString_iff.mp (by cases v <;> simp_all [Leaf.admits])
  | function => exact isFunction_iff.mp (by cases v <;> simp_all [Leaf.admits])

theorem ne_undefined_of_bind {α : Type} {read : Object → Option α} {x : α}
    (hv : (h.objectOf? v).bind read = some x) : v ≠ .undefined := by
  obtain ⟨id, _, rfl, _⟩ := object_of_bind hv
  exact Value.noConfusion

/-- **Undefined comes before all others.** -/
theorem ordersOn_or_undefined {P : Value → Prop} (ho : OrdersOn (h.compareWithin room) P)
    (hp : ∀ v, P v → v ≠ .undefined) :
    OrdersOn (h.compareWithin room) fun v => v = .undefined ∨ P v :=
  ho.first (compareWithin_undefined_self h room) fun v hv => compareWithin_undefined room (hp v hv)

/-- **Leaves are in order**, by their integers, their texts or their callables. -/
theorem ordersOn_leaves (h : Heap) (leaf : Leaf) (room : Nat) :
    OrdersOn (h.compareWithin room) fun v => leaf.admits h v = true := by
  cases leaf with
  | integer =>
    have hkeys : OrdersOn (fun m n : Int64 => Ord.compare m.toInt n.toInt) fun _ => True :=
      OrdersOn.of_transOrd.on Int64.toInt
    refine (ordersOn_or_undefined (hkeys.of_keys (fun v n => v.numeric? = some (.integer n)) ?_)
      ?_).mono fun v hv => (leaf_cases hv).imp_right fun ⟨n, hn⟩ => ⟨n, hn, trivial⟩
    · intro a b m n ha hb _ _
      exact compareWithin_of_numeric? ha hb
    · rintro v ⟨n, hn, -⟩ rfl
      cases hn
  | string =>
    have hkeys : OrdersOn (Ord.compare : String → String → Ordering) fun _ => True := .of_transOrd
    refine (ordersOn_or_undefined (hkeys.of_keys (fun v text => h.text? v = some text) ?_)
      ?_).mono fun v hv => (leaf_cases hv).imp_right fun ⟨text, ht⟩ => ⟨text, ht, trivial⟩
    · intro a b s t ha hb _ _
      rw [compareWithin_of_text (ne_undefined_of_bind ha) (ne_undefined_of_bind hb)
        (Or.inl (isString_iff.mpr ⟨s, ha⟩)), toText_of_text? ha, toText_of_text? hb]
    · rintro v ⟨text, ht, -⟩
      exact ne_undefined_of_bind ht
  | function =>
    refine (ordersOn_or_undefined ((Callable.ordersOn_compare h.places).of_keys
      (fun v f => h.callable? v = some f) ?_) ?_).mono
        fun v hv => (leaf_cases hv).imp_right fun ⟨f, hf⟩ => ⟨f, hf, trivial⟩
    · intro a b f g ha hb _ _
      exact compareWithin_of_callable? ha hb
    · rintro v ⟨f, hf, -⟩
      exact ne_undefined_of_bind hf

/-- **Values of one shape are in order** while there is room for their arrays. -/
theorem ordersOn_shaped (h : Heap) (leaf : Leaf) : ∀ depth room : Nat, depth ≤ room →
    OrdersOn (h.compareWithin room) (h.Shaped leaf depth) := by
  intro depth
  induction depth with
  | zero => exact fun room _ => ordersOn_leaves h leaf room
  | succ depth ih =>
    intro room hroom
    obtain ⟨less, rfl⟩ : ∃ less, room = less + 1 := ⟨room - 1, by omega⟩
    have hmembers := (ih less (by omega)).lists
    refine (ordersOn_or_undefined (hmembers.of_keys
      (fun v xs => (h.elements? v).map Array.toList = some xs) ?_) ?_).mono fun v hv => ?_
    · intro a b xs ys ha hb hxs _
      obtain ⟨xs, hxa, rfl⟩ := Option.map_eq_some_iff.mp ha
      obtain ⟨ys, hyb, rfl⟩ := Option.map_eq_some_iff.mp hb
      by_cases hab : a = b
      · -- The same array is level with itself, as its members would be.
        subst hab
        obtain rfl := Option.some.inj (hxa.symm.trans hyb)
        obtain ⟨id, _, rfl, _⟩ := object_of_elements? hxa
        rw [compareWithin_self, hmembers.refl hxs]
      · exact compareWithin_of_elements? hxa hyb hab
    · rintro v ⟨xs, hv, -⟩
      obtain ⟨_, hv, -⟩ := Option.map_eq_some_iff.mp hv
      exact ne_undefined_of_bind hv
    · exact hv.imp_right fun ⟨xs, hx, hall⟩ => ⟨xs.toList, by rw [hx]; rfl, hall⟩

/-- **The order of values of one shape**, arrays inside one another up to the depth to which they are
followed. Each is equal to itself, the order is the same both ways round, and what is not greater
than something not greater than a third is not greater than the third. Sorting puts them in
ascending order and leaves ties in the order they were in, and there is no other list that does. -/
theorem compare_shaped (h : Heap) (leaf : Leaf) {depth : Nat} (hd : depth ≤ Comparison.maxDepth) :
    (∀ a, h.Shaped leaf depth a → h.compare a a = .eq) ∧
    (∀ a b, h.Shaped leaf depth a → h.Shaped leaf depth b →
      h.compare b a = (h.compare a b).swap) ∧
    (∀ a b c, h.Shaped leaf depth a → h.Shaped leaf depth b → h.Shaped leaf depth c →
      h.compare a b ≠ .gt → h.compare b c ≠ .gt → h.compare a c ≠ .gt) ∧
    ∀ vs : List Value, (∀ v ∈ vs, h.Shaped leaf depth v) →
      (h.sorted vs).Perm vs ∧ (h.sorted vs).Pairwise (h.compare · · ≠ .gt) ∧
      (∀ v ∈ vs, (h.sorted vs).filter (h.compare v · == .eq) = vs.filter (h.compare v · == .eq)) ∧
      ∀ ws : List Value, ws.Perm vs → ws.Pairwise (h.compare · · ≠ .gt) →
        (∀ v ∈ vs, ws.filter (h.compare v · == .eq) = vs.filter (h.compare v · == .eq)) →
        ws = h.sorted vs := by
  have ho : OrdersOn h.compare (h.Shaped leaf depth) := ordersOn_shaped h leaf depth _ hd
  refine ⟨fun a => ho.refl, fun a b => ho.swap, fun a b c => ho.trans, fun vs hvs => ?_⟩
  have hweak := ho.weakOrderOn hvs
  have hperm : (h.sorted vs).Perm vs := Comparison.perm_sort _ vs
  have hsorted (v : Value) (hv : v ∈ h.sorted vs) : h.Shaped leaf depth v :=
    hvs v (hperm.mem_iff.mp hv)
  have hordered : Ordered (fun a b => h.compare a b == .lt) (h.sorted vs) :=
    Comparison.ordered_sort hweak
  have hties {v : Value} (hv : v ∈ vs) {ws : List Value} (hws : ws.Perm vs) :
      ws.filter (Comparison.level (fun a b => h.compare a b == .lt) v) =
        ws.filter (h.compare v · == .eq) :=
    List.filter_congr fun w hw => ho.level_eq (hvs v hv) (hvs w (hws.mem_iff.mp hw))
  have hstable (v : Value) (hv : v ∈ vs) :
      (h.sorted vs).filter (h.compare v · == .eq) = vs.filter (h.compare v · == .eq) := by
    rw [← hties hv hperm, ← hties hv (.refl vs)]
    exact Comparison.filter_sort hweak hv
  refine ⟨hperm, (ho.ordered_iff hsorted).mp hordered, hstable, fun ws hws hascends htie => ?_⟩
  have hws' (w : Value) (hw : w ∈ ws) : h.Shaped leaf depth w := hvs w (hws.mem_iff.mp hw)
  refine Comparison.eq_of_ordered_of_filter hweak hws.subset (hws.trans hperm.symm)
    ((ho.ordered_iff hws').mpr hascends) hordered fun v hw => ?_
  have hv := hws.mem_iff.mp hw
  rw [hties hv hws, hties hv hperm, htie v hv, hstable v hv]

def ragged : Session :=
  (Session.initial.run
    [⟨.store (.keep (.array [.integer 2, .null])), some "shared", none⟩,
      ⟨.store (.keep (.array [.register "shared", .array [.boolean true, .integer 3]])),
        some "long", none⟩,
      ⟨.store (.keep (.array [.register "shared", .array [.integer 1]])), some "short", none⟩,
      ⟨.store (.keep (.array [.register "shared", .array [.boolean true]])),
        some "level", none⟩]).2

/-- Undefined comes first, what is longer comes last, and a tie stays as it was. -/
theorem compare_shaped_ragged :
    let vs : List Value := [.object 6, .object 8, .undefined, .object 10]
    (∀ v ∈ vs, ragged.heap.Shaped .integer 2 v) ∧
      ragged.heap.sorted vs = [.undefined, .object 8, .object 10, .object 6] ∧
      (ragged.heap.sorted vs).Perm vs ∧
      (ragged.heap.sorted vs).Pairwise (ragged.heap.compare · · ≠ .gt) := by
  intro vs
  have hvs : ∀ v ∈ vs, ragged.heap.Shaped .integer 2 v := by decide +kernel
  obtain ⟨hperm, hascends, -⟩ :=
    (compare_shaped ragged.heap .integer (by decide : 2 ≤ Comparison.maxDepth)).2.2.2 vs hvs
  exact ⟨hvs, by decide +kernel, hperm, hascends⟩

end Heap

end ScriptCore
