import Mathlib
import ScriptCore.Callable

/-!
# Orders

`OrdersOn cmp P`: a comparison puts the things with a property in order, some of them perhaps level
with each other. It may be of no use on other things, so the laws are asked for where the property
holds, and not of the whole type.

Comparisons are put together from others, and so are the orders: by a key (`OrdersOn.of_keys`), by one
comparison after another (`OrdersOn.lex`), with one thing before all others (`OrdersOn.first`), and
member by member along lists (`OrdersOn.lists`).
-/

namespace ScriptCore

namespace Comparison

variable {α β : Type} {cmp second : α → α → Ordering} {P Q : α → Prop} {a b c : α}

/-- A comparison that is a **total preorder** on the things with a property: it is the same both ways
round, and what is not greater than something that is not greater than a third is not greater than
the third. -/
structure OrdersOn (cmp : α → α → Ordering) (P : α → Prop) : Prop where
  swap : ∀ {a b}, P a → P b → cmp b a = (cmp a b).swap
  trans : ∀ {a b c}, P a → P b → P c → cmp a b ≠ .gt → cmp b c ≠ .gt → cmp a c ≠ .gt

theorem then_ne_gt_iff {o p : Ordering} : o.then p ≠ .gt ↔ o = .lt ∨ o = .eq ∧ p ≠ .gt := by
  cases o <;> simp

namespace OrdersOn

/-! ## What follows from the laws -/

theorem refl (ho : OrdersOn cmp P) (ha : P a) : cmp a a = .eq := by
  have hs := ho.swap ha ha
  cases he : cmp a a with
  | eq => rfl
  | lt | gt =>
    rw [he] at hs
    cases hs

theorem ne_gt_swap_iff (ho : OrdersOn cmp P) (ha : P a) (hb : P b) :
    cmp b a ≠ .gt ↔ cmp a b ≠ .lt := by
  rw [ho.swap ha hb]
  cases cmp a b <;> simp

theorem lt_of_lt_of_ne_gt (ho : OrdersOn cmp P) (ha : P a) (hb : P b) (hc : P c)
    (hab : cmp a b = .lt) (hbc : cmp b c ≠ .gt) : cmp a c = .lt := by
  by_contra hac
  exact (ho.ne_gt_swap_iff ha hb).mp
    (ho.trans hb hc ha hbc ((ho.ne_gt_swap_iff ha hc).mpr hac)) hab

theorem lt_of_ne_gt_of_lt (ho : OrdersOn cmp P) (ha : P a) (hb : P b) (hc : P c)
    (hab : cmp a b ≠ .gt) (hbc : cmp b c = .lt) : cmp a c = .lt := by
  by_contra hac
  exact (ho.ne_gt_swap_iff hb hc).mp
    (ho.trans hc ha hb ((ho.ne_gt_swap_iff ha hc).mpr hac) hab) hbc

theorem eq_trans (ho : OrdersOn cmp P) (ha : P a) (hb : P b) (hc : P c)
    (hab : cmp a b = .eq) (hbc : cmp b c = .eq) : cmp a c = .eq := by
  have hle := ho.trans ha hb hc (by simp [hab]) (by simp [hbc])
  have hge := ho.trans hc hb ha (by simp [ho.swap hb hc, hbc]) (by simp [ho.swap ha hb, hab])
  rw [ho.ne_gt_swap_iff ha hc] at hge
  cases he : cmp a c with
  | eq => rfl
  | lt => exact absurd he hge
  | gt => exact absurd he hle

theorem then_trans (ho : OrdersOn cmp P) (ha : P a) (hb : P b) (hc : P c) {p q r : Ordering}
    (hrest : cmp a b = .eq → cmp b c = .eq → p ≠ .gt → q ≠ .gt → r ≠ .gt)
    (hab : (cmp a b).then p ≠ .gt) (hbc : (cmp b c).then q ≠ .gt) : (cmp a c).then r ≠ .gt := by
  rw [then_ne_gt_iff] at hab hbc ⊢
  rcases hab with hab | ⟨hab, hp⟩
  · have hle : cmp b c ≠ .gt := by
      rcases hbc with hbc | ⟨hbc, _⟩ <;> simp [hbc]
    exact Or.inl (ho.lt_of_lt_of_ne_gt ha hb hc hab hle)
  rcases hbc with hbc | ⟨hbc, hq⟩
  · exact Or.inl (ho.lt_of_ne_gt_of_lt ha hb hc (by simp [hab]) hbc)
  · exact Or.inr ⟨ho.eq_trans ha hb hc hab hbc, hrest hab hbc hp hq⟩

/-! ## Orders from orders -/

theorem of_transOrd [Ord α] [Std.TransOrd α] : OrdersOn (compare : α → α → Ordering) fun _ => True where
  swap _ _ := Std.OrientedOrd.eq_swap
  trans _ _ _ hab hbc := by
    rw [Ne, ← Ordering.isLE_iff_ne_gt] at hab hbc ⊢
    exact Std.TransOrd.isLE_trans hab hbc

/-- **By a key**: things that have one are ordered as their keys are. -/
theorem of_keys (key : β → α → Prop) {other : β → β → Ordering} (ho : OrdersOn cmp P)
    (he : ∀ {a b x y}, key a x → key b y → P x → P y → other a b = cmp x y) :
    OrdersOn other fun b => ∃ x, key b x ∧ P x where
  swap := by
    rintro a b ⟨x, ha, hx⟩ ⟨y, hb, hy⟩
    rw [he ha hb hx hy, he hb ha hy hx, ho.swap hx hy]
  trans := by
    rintro a b c ⟨x, ha, hx⟩ ⟨y, hb, hy⟩ ⟨z, hc, hz⟩
    rw [he ha hb hx hy, he hb hc hy hz, he ha hc hx hz]
    exact ho.trans hx hy hz

theorem on (key : β → α) (ho : OrdersOn cmp P) :
    OrdersOn (fun a b => cmp (key a) (key b)) fun b => P (key b) where
  swap ha hb := ho.swap ha hb
  trans ha hb hc := ho.trans ha hb hc

theorem mono (ho : OrdersOn cmp P) (hq : ∀ a, Q a → P a) : OrdersOn cmp Q where
  swap ha hb := ho.swap (hq _ ha) (hq _ hb)
  trans ha hb hc := ho.trans (hq _ ha) (hq _ hb) (hq _ hc)

/-- **One comparison after another**: the second need only order what the first leaves level. -/
theorem lex (ho : OrdersOn cmp P)
    (hsecond : ∀ a, P a → OrdersOn second fun b => P b ∧ cmp a b = .eq) :
    OrdersOn (fun a b => (cmp a b).then (second a b)) P where
  swap := by
    intro a b ha hb
    rw [ho.swap ha hb, Ordering.swap_then]
    cases he : cmp a b with
    | eq => exact (hsecond a ha).swap ⟨ha, ho.refl ha⟩ ⟨hb, he⟩
    | lt | gt => rfl
  trans := by
    intro a b c ha hb hc
    refine ho.then_trans ha hb hc fun hab hbc => ?_
    exact (hsecond a ha).trans ⟨ha, ho.refl ha⟩ ⟨hb, hab⟩ ⟨hc, ho.eq_trans ha hb hc hab hbc⟩

/-- **One thing before all others.** -/
theorem first (ho : OrdersOn cmp P) (hself : cmp a a = .eq)
    (hfirst : ∀ b, P b → cmp a b = .lt ∧ cmp b a = .gt) : OrdersOn cmp fun b => b = a ∨ P b where
  swap := by
    rintro x y (rfl | hx) (rfl | hy)
    · rw [hself]
      rfl
    · rw [(hfirst y hy).1, (hfirst y hy).2]
      rfl
    · rw [(hfirst x hx).1, (hfirst x hx).2]
      rfl
    · exact ho.swap hx hy
  trans := by
    rintro x y z (rfl | hx) hy (rfl | hz) hxy hyz
    · simp [hself]
    · simp [(hfirst z hz).1]
    · rcases hy with rfl | hy
      · exact absurd (hfirst x hx).2 hxy
      · exact absurd (hfirst y hy).2 hyz
    · rcases hy with rfl | hy
      · exact absurd (hfirst x hx).2 hxy
      · exact ho.trans hx hy hz hxy hyz

/-! ## Lists -/

/-- **Member by member**, a proper beginning before what it begins. -/
theorem lists (ho : OrdersOn cmp P) : OrdersOn (compareLists cmp) fun xs => ∀ x ∈ xs, P x where
  swap := by
    intro xs
    induction xs with
    | nil => intro ys _ _; cases ys <;> rfl
    | cons x xs ih =>
      intro ys hx hy
      cases ys with
      | nil => rfl
      | cons y ys =>
        rw [List.forall_mem_cons] at hx hy
        rw [compareLists, compareLists, Ordering.swap_then, ho.swap hx.1 hy.1, ih hx.2 hy.2]
  trans := by
    intro xs
    induction xs with
    | nil =>
      intro ys zs _ _ _ _ _
      cases zs <;> simp [compareLists]
    | cons x xs ih =>
      intro ys zs hx hy hz hxy hyz
      cases ys with
      | nil => exact absurd rfl hxy
      | cons y ys =>
        cases zs with
        | nil => exact absurd rfl hyz
        | cons z zs =>
          rw [List.forall_mem_cons] at hx hy hz
          exact ho.then_trans hx.1 hy.1 hz.1 (fun _ _ => ih hx.2 hy.2 hz.2) hxy hyz

end OrdersOn

end Comparison

end ScriptCore
