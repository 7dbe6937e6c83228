import Mathlib
import ScriptCore.Comparison

/-!
# Sorting

What sorting by insertion does depends on the comparison only through the members of the list. If
among them it is a weak order (`WeakOrderOn`), the sorted list is ordered (`ordered_sort`), and two
ordered lists with the same members have members without order between them at the same places
(`forall₂_of_ordered`), so there is no other way to order the list. Members without order between them
stay in the order they were in (`filter_sort`), and that leaves no choice at all
(`eq_of_ordered_of_filter`). The sorted list has the members of the list in any case (`perm_sort`), and
it is the same for comparisons that agree on them (`sort_congr`).
-/

namespace ScriptCore

namespace Comparison

variable {α : Type} {less : α → α → Bool} {members xs ys : List α} {x : α}

/-- A comparison that is a **weak order** on the members of a list: nothing is less both ways, and
what is not less than one that is not less than a third is not less than the third. -/
structure WeakOrderOn (less : α → α → Bool) (members : List α) : Prop where
  asymm : ∀ a ∈ members, ∀ b ∈ members, less a b = true → less b a = false
  trans : ∀ a ∈ members, ∀ b ∈ members, ∀ c ∈ members,
    less a b = false → less b c = false → less a c = false

theorem WeakOrderOn.irrefl (hw : WeakOrderOn less members) (hx : x ∈ members) :
    less x x = false := by
  by_contra hr
  rw [Bool.not_eq_false] at hr
  exact Bool.noConfusion (hr.symm.trans (hw.asymm x hx x hx hr))

def Ordered (less : α → α → Bool) (xs : List α) : Prop := xs.Pairwise fun a b => less b a = false

/-! ## The members -/

theorem perm_insertDescending (less : α → α → Bool) (x : α) :
    ∀ ys : List α, (insertDescending less x ys).Perm (x :: ys)
  | [] => .refl _
  | y :: ys => by
    rw [insertDescending]
    split
    · exact ((perm_insertDescending less x ys).cons y).trans (.swap x y ys)
    · exact .refl _

theorem perm_foldl_insertDescending (less : α → α → Bool) (xs sorted : List α) :
    (xs.foldl (fun sorted x => insertDescending less x sorted) sorted).Perm (xs ++ sorted) := by
  induction xs generalizing sorted with
  | nil => exact .refl _
  | cons x xs ih =>
    exact (ih _).trans
      (((perm_insertDescending less x sorted).append_left xs).trans List.perm_middle)

/-- **The members** of the list are the members of the sorted list, whatever the comparison is. -/
theorem perm_sort (less : α → α → Bool) (xs : List α) : (sort less xs).Perm xs := by
  have hp := perm_foldl_insertDescending less xs []
  rw [List.append_nil] at hp
  exact (List.reverse_perm _).trans hp

theorem subset_insertDescending {less : α → α → Bool} (hx : x ∈ members) (hys : ys ⊆ members) :
    insertDescending less x ys ⊆ members := by
  intro z hz
  rcases List.mem_cons.mp ((perm_insertDescending less x ys).mem_iff.mp hz) with rfl | hz
  · exact hx
  · exact hys hz

/-! ## What the comparison is asked -/

theorem insertDescending_congr {less more : α → α → Bool} (he : ∀ y ∈ ys, less x y = more x y) :
    insertDescending less x ys = insertDescending more x ys := by
  induction ys with
  | nil => rfl
  | cons y ys ih =>
    rw [insertDescending, insertDescending, he y List.mem_cons_self,
      ih fun z hz => he z (List.mem_cons_of_mem y hz)]

/-- **Sorting asks about the members only.** -/
theorem sort_congr {less more : α → α → Bool} (he : ∀ x ∈ xs, ∀ y ∈ xs, less x y = more x y) :
    sort less xs = sort more xs := by
  have hfold (rest : List α) : ∀ sorted : List α, rest ⊆ xs → sorted ⊆ xs →
      rest.foldl (fun sorted x => insertDescending less x sorted) sorted =
        rest.foldl (fun sorted x => insertDescending more x sorted) sorted := by
    induction rest with
    | nil => exact fun _ _ _ => rfl
    | cons x rest ih =>
      intro sorted hrest hsorted
      have hx : x ∈ xs := hrest List.mem_cons_self
      rw [List.foldl_cons, List.foldl_cons,
        ← insertDescending_congr fun y hy => he x hx y (hsorted hy)]
      exact ih _ (fun z hz => hrest (List.mem_cons_of_mem x hz))
        (subset_insertDescending hx hsorted)
  rw [sort, sort, hfold xs [] (List.Subset.refl xs) (List.nil_subset xs)]

/-! ## Their order -/

theorem ordered_insertDescending (hw : WeakOrderOn less members) (hx : x ∈ members)
    (hys : ys ⊆ members) (ho : ys.Pairwise fun a b => less a b = false) :
    (insertDescending less x ys).Pairwise fun a b => less a b = false := by
  induction ys with
  | nil => exact List.pairwise_singleton ..
  | cons y ys ih =>
    obtain ⟨hy, ho⟩ := List.pairwise_cons.mp ho
    have hym : y ∈ members := hys List.mem_cons_self
    have hym' : ys ⊆ members := fun z hz => hys (List.mem_cons_of_mem y hz)
    rw [insertDescending]
    split
    case isTrue hlt =>
      refine List.pairwise_cons.mpr ⟨fun z hz => ?_, ih hym' ho⟩
      rcases List.mem_cons.mp ((perm_insertDescending less x ys).mem_iff.mp hz) with rfl | hz
      · exact hw.asymm _ hx _ hym hlt
      · exact hy z hz
    case isFalse hlt =>
      rw [Bool.not_eq_true] at hlt
      refine List.pairwise_cons.mpr ⟨fun z hz => ?_, List.pairwise_cons.mpr ⟨hy, ho⟩⟩
      rcases List.mem_cons.mp hz with rfl | hz
      · exact hlt
      · exact hw.trans _ hx _ hym _ (hym' hz) hlt (hy z hz)

/-- **The sorted list is ordered** if the comparison is a weak order on its members. -/
theorem ordered_sort (hw : WeakOrderOn less xs) : Ordered less (sort less xs) := by
  have hfold (rest : List α) : ∀ sorted : List α, rest ⊆ xs → sorted ⊆ xs →
      (sorted.Pairwise fun a b => less a b = false) →
      (rest.foldl (fun sorted x => insertDescending less x sorted) sorted).Pairwise
        fun a b => less a b = false := by
    induction rest with
    | nil => exact fun _ _ _ ho => ho
    | cons x rest ih =>
      intro sorted hrest hsorted ho
      have hx : x ∈ xs := hrest List.mem_cons_self
      exact ih _ (fun z hz => hrest (List.mem_cons_of_mem x hz))
        (subset_insertDescending hx hsorted) (ordered_insertDescending hw hx hsorted ho)
  rw [Ordered, sort, List.pairwise_reverse]
  exact hfold xs [] (List.Subset.refl xs) (List.nil_subset xs) .nil

/-! ## No other order -/

/-- Of two ordered lists with the same members, one has nothing at a place that is less than what
the other has there. Otherwise it would have more members that are less than that. -/
theorem not_less_of_ordered {a b : α} {before before' after after' : List α}
    (hw : WeakOrderOn less members) (hm : before ++ a :: after ⊆ members)
    (hp : (before ++ a :: after).Perm (before' ++ b :: after'))
    (ha : Ordered less (before ++ a :: after)) (hb : Ordered less (before' ++ b :: after'))
    (hl : before.length = before'.length) : less b a = false := by
  by_contra hlt
  rw [Bool.not_eq_false] at hlt
  have ham : a ∈ members := hm (by simp)
  have hm' : before' ++ b :: after' ⊆ members := fun z hz => hm (hp.mem_iff.mpr hz)
  have hfew : (before ++ a :: after).countP (less · a) ≤ before.length := by
    have hrest : (a :: after).countP (less · a) = 0 := by
      refine List.countP_eq_zero.mpr fun z hz => ?_
      rw [Bool.not_eq_true]
      rcases List.mem_cons.mp hz with rfl | hz
      · exact hw.irrefl ham
      · exact (List.pairwise_cons.mp (List.pairwise_append.mp ha).2.1).1 z hz
    rw [List.countP_append, hrest]
    exact List.countP_le_length
  have hmany : before'.length + 1 ≤ (before' ++ b :: after').countP (less · a) := by
    have hfirst : before'.countP (less · a) = before'.length := by
      refine List.countP_eq_length.mpr fun z hz => ?_
      by_contra hz'
      have hzb := (List.pairwise_append.mp hb).2.2 z hz b List.mem_cons_self
      have := hw.trans b (hm' (by simp)) z (hm' (by simp [hz])) a ham hzb (by simpa using hz')
      exact Bool.noConfusion (hlt.symm.trans this)
    rw [List.countP_append, hfirst, List.countP_cons_of_pos (p := fun z => less z a) hlt]
    omega
  rw [hp.countP_eq] at hfew
  omega

theorem forall₂_of_ordered_append (hw : WeakOrderOn less members) (rest : List α) :
    ∀ before before' rest' : List α, before ++ rest ⊆ members →
      (before ++ rest).Perm (before' ++ rest') → Ordered less (before ++ rest) →
      Ordered less (before' ++ rest') → before.length = before'.length →
      List.Forall₂ (fun a b => less a b = false ∧ less b a = false) rest rest' := by
  induction rest with
  | nil =>
    intro before before' rest' _ hp _ _ hl
    have hlen := hp.length_eq
    simp only [List.append_nil, List.length_append] at hlen
    obtain rfl : rest' = [] := List.length_eq_zero_iff.mp (by omega)
    exact .nil
  | cons a rest ih =>
    intro before before' rest' hm hp ha hb hl
    obtain _ | ⟨b, rest'⟩ := rest'
    · have hlen := hp.length_eq
      simp only [List.append_nil, List.length_append, List.length_cons] at hlen
      omega
    have hm' : before' ++ b :: rest' ⊆ members := fun z hz => hm (hp.mem_iff.mpr hz)
    refine .cons ⟨not_less_of_ordered hw hm' hp.symm hb ha hl.symm,
      not_less_of_ordered hw hm hp ha hb hl⟩ (ih (before ++ [a]) (before' ++ [b]) rest' ?_ ?_ ?_ ?_ ?_)
    all_goals simp only [List.append_assoc, List.cons_append, List.nil_append, List.length_append,
      List.length_cons, hl]
    · exact hm
    · exact hp
    · exact ha
    · exact hb

/-- **Ordered lists with the same members** have at the same places what is not less either way. -/
theorem forall₂_of_ordered (hw : WeakOrderOn less xs) (hp : xs.Perm ys) (hx : Ordered less xs)
    (hy : Ordered less ys) : List.Forall₂ (fun a b => less a b = false ∧ less b a = false) xs ys :=
  forall₂_of_ordered_append hw xs [] [] ys (List.Subset.refl xs) hp hx hy rfl

/-! ## Ties -/

def level (less : α → α → Bool) (x y : α) : Bool := !less x y && !less y x

theorem level_iff {y : α} : level less x y = true ↔ less x y = false ∧ less y x = false := by
  simp [level]

theorem WeakOrderOn.level_trans {y z : α} (hw : WeakOrderOn less members) (hx : x ∈ members)
    (hy : y ∈ members) (hz : z ∈ members) (hxy : level less x y = true)
    (hyz : level less y z = true) : level less x z = true := by
  rw [level_iff] at hxy hyz ⊢
  exact ⟨hw.trans x hx y hy z hz hxy.1 hyz.1, hw.trans z hz y hy x hx hyz.2 hxy.2⟩

/-- Inserting puts nothing between those of a tie that were there, and the new one in front of
them. -/
theorem filter_insertDescending {z : α} (hw : WeakOrderOn less members) (hx : x ∈ members)
    (hz : z ∈ members) (hys : ys ⊆ members) :
    (insertDescending less x ys).filter (level less z) = (x :: ys).filter (level less z) := by
  induction ys with
  | nil => rfl
  | cons y ys ih =>
    have hy : y ∈ members := hys List.mem_cons_self
    rw [insertDescending]
    split
    case isFalse => rfl
    case isTrue hlt =>
      rw [List.filter_cons, ih fun w hw => hys (List.mem_cons_of_mem y hw)]
      -- Not both are of the tie, since one is less than the other.
      have hone : level less z x = false ∨ level less z y = false := by
        by_contra hboth
        simp only [not_or, Bool.not_eq_false] at hboth
        have hxy := hw.level_trans hx hz hy (level_iff.mpr (level_iff.mp hboth.1).symm) hboth.2
        exact Bool.noConfusion (hlt.symm.trans (level_iff.mp hxy).1)
      rcases hone with hone | hone <;> simp [List.filter_cons, hone]

/-- **Ties keep their order.** -/
theorem filter_sort {z : α} (hw : WeakOrderOn less xs) (hz : z ∈ xs) :
    (sort less xs).filter (level less z) = xs.filter (level less z) := by
  have hfold (rest : List α) : ∀ sorted : List α, rest ⊆ xs → sorted ⊆ xs →
      (rest.foldl (fun sorted x => insertDescending less x sorted) sorted).filter (level less z) =
        (rest.filter (level less z)).reverse ++ sorted.filter (level less z) := by
    induction rest with
    | nil => exact fun _ _ _ => rfl
    | cons x rest ih =>
      intro sorted hrest hsorted
      have hx : x ∈ xs := hrest List.mem_cons_self
      rw [List.foldl_cons, ih _ (fun y hy => hrest (List.mem_cons_of_mem x hy))
        (subset_insertDescending hx hsorted), filter_insertDescending hw hx hz hsorted]
      by_cases hzx : level less z x = true <;> simp [hzx]
  rw [sort, List.filter_reverse, hfold xs [] (List.Subset.refl xs) (List.nil_subset xs)]
  simp

/-- **No choice is left**: two ordered lists with the same members, and each tie in the same order, are
the same. -/
theorem eq_of_ordered_of_filter (hw : WeakOrderOn less members) :
    ∀ {xs ys : List α}, xs ⊆ members → xs.Perm ys → Ordered less xs → Ordered less ys →
      (∀ z ∈ xs, xs.filter (level less z) = ys.filter (level less z)) → xs = ys := by
  intro xs
  induction xs with
  | nil => exact fun _ hp _ _ _ => hp.nil_eq
  | cons x xs ih =>
    intro ys hm hp hx hy ht
    obtain _ | ⟨y, ys⟩ := ys
    · exact absurd hp.length_eq (by simp)
    have hxm : x ∈ members := hm List.mem_cons_self
    have hself : level less x x = true := level_iff.mpr ⟨hw.irrefl hxm, hw.irrefl hxm⟩
    have hheads : level less x y = true := by
      have hplaces := forall₂_of_ordered_append hw (x :: xs) [] [] (y :: ys) hm hp hx hy rfl
      exact level_iff.mpr (List.forall₂_cons.mp hplaces).1
    obtain rfl : x = y := by
      have hfirst := ht x List.mem_cons_self
      rw [List.filter_cons_of_pos hself, List.filter_cons_of_pos hheads] at hfirst
      exact (List.cons.inj hfirst).1
    refine congrArg (x :: ·) (ih (fun z hz => hm (List.mem_cons_of_mem x hz)) hp.cons_inv
      (List.pairwise_cons.mp hx).2 (List.pairwise_cons.mp hy).2 fun z hz => ?_)
    have hrest := ht z (List.mem_cons_of_mem x hz)
    by_cases hzx : level less z x = true
    · rw [List.filter_cons_of_pos hzx, List.filter_cons_of_pos hzx] at hrest
      exact (List.cons.inj hrest).2
    · rwa [List.filter_cons_of_neg hzx, List.filter_cons_of_neg hzx] at hrest

end Comparison

end ScriptCore
