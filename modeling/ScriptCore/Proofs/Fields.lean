import Mathlib
import ScriptCore.Fields

/-!
# The entries of fields

Which entries there are after a write, after a removal, and in fields made from a list, and what is
gained and lost by that, counted exactly (`Fields.perm_values_insert`, `Fields.perm_values_erase`).
-/

namespace ScriptCore

/-! ## Lists with one match -/

section OneMatch

variable {α : Type} {p : α → Bool} {xs : List α}

def OneMatch (p : α → Bool) (xs : List α) : Prop := xs.Pairwise fun a b => p a = true → p b = false

theorem OneMatch.perm_filter (ho : OneMatch p xs) :
    ((xs.find? p).toList ++ xs.filter fun x => !p x).Perm xs := by
  induction xs with
  | nil => exact List.Perm.refl _
  | cons x xs ih =>
    obtain ⟨hx, hxs⟩ := List.pairwise_cons.mp ho
    cases hp : p x with
    | true =>
      have hrest : xs.filter (fun x => !p x) = xs := by
        refine List.filter_eq_self.mpr fun y hy => ?_
        rw [hx y hy hp]
        rfl
      simp [hp, hrest]
    | false =>
      have hfind : (x :: xs).find? p = xs.find? p := by simp [hp]
      have hfilter : (x :: xs).filter (fun x => !p x) = x :: xs.filter fun x => !p x := by
        simp [hp]
      rw [hfind, hfilter]
      exact List.perm_middle.trans ((ih hxs).cons x)

theorem OneMatch.perm_map (ho : OneMatch p xs) (f : α → α) :
    ((xs.find? p).toList ++ xs.map fun x => if p x then f x else x).Perm
      (((xs.find? p).map f).toList ++ xs) := by
  induction xs with
  | nil => exact List.Perm.refl _
  | cons x xs ih =>
    obtain ⟨hx, hxs⟩ := List.pairwise_cons.mp ho
    cases hp : p x with
    | true =>
      have hrest : (xs.map fun x => if p x then f x else x) = xs := by
        refine (List.map_congr_left fun y hy => ?_).trans (List.map_id xs)
        rw [hx y hy hp]
        rfl
      have hfind : (x :: xs).find? p = some x := by simp [hp]
      rw [hfind, List.map_cons, if_pos hp, hrest]
      exact List.Perm.swap ..
    | false =>
      have hfind : (x :: xs).find? p = xs.find? p := by simp [hp]
      rw [hfind, List.map_cons, hp]
      exact List.perm_middle.trans (((ih hxs).cons x).trans List.perm_middle.symm)

theorem OneMatch.find?_eq_some (ho : OneMatch p xs) {x : α} (hm : x ∈ xs) (hp : p x = true) :
    xs.find? p = some x := by
  induction xs with
  | nil => exact absurd hm List.not_mem_nil
  | cons y ys ih =>
    obtain ⟨hy, hys⟩ := List.pairwise_cons.mp ho
    rcases List.mem_cons.mp hm with rfl | hm
    · exact List.find?_cons_of_pos hp
    · cases hpy : p y with
      | true => exact absurd (hy x hm hpy) (by simp [hp])
      | false => rw [List.find?_cons_of_neg (by simp [hpy]), ih hys hm]

end OneMatch

namespace Fields

variable {α : Type} {fields : Fields α} {key name : String} {value other : α}

theorem eq_of_entries_eq {other : Fields α} (he : fields.entries = other.entries) :
    fields = other := by
  cases fields
  cases other
  congr

theorem lookup_eq_some_iff {entries : List (String × α)} (hd : (entries.map Prod.fst).Nodup) :
    entries.lookup key = some value ↔ (key, value) ∈ entries := by
  induction entries with
  | nil => simp
  | cons entry entries ih =>
    obtain ⟨name, other⟩ := entry
    obtain ⟨hnot, hd⟩ := List.nodup_cons.mp hd
    rw [List.lookup_cons]
    by_cases he : key = name
    · subst he
      have hno : (key, value) ∉ entries := fun hm => hnot (List.mem_map.mpr ⟨_, hm, rfl⟩)
      simp [hno, eq_comm]
    · rw [beq_eq_false_iff_ne.mpr he]
      simp [ih hd, he]

theorem get?_eq_some_iff : fields.get? key = some value ↔ (key, value) ∈ fields.entries :=
  lookup_eq_some_iff fields.nodup

theorem mem_values_iff : value ∈ fields.values ↔ ∃ key, (key, value) ∈ fields.entries := by
  simp [values]

theorem mem_values_of_get? (hg : fields.get? key = some value) : value ∈ fields.values :=
  mem_values_iff.mpr ⟨key, get?_eq_some_iff.mp hg⟩

/-- **After a write** there is the new entry, and of the others those of other names. -/
theorem mem_entries_insert :
    (name, other) ∈ (fields.insert key value).entries ↔
      (name = key ∧ other = value) ∨ (name ≠ key ∧ (name, other) ∈ fields.entries) := by
  rw [insert]
  split
  · next hmem =>
    simp only [overwrite, List.mem_map]
    constructor
    · rintro ⟨⟨k, v⟩, hm, he⟩
      by_cases hk : k = key
      · rw [if_pos hk] at he
        exact Or.inl ⟨(congrArg Prod.fst he).symm, (congrArg Prod.snd he).symm⟩
      · rw [if_neg hk] at he
        obtain ⟨rfl, rfl⟩ := Prod.mk.inj he
        exact Or.inr ⟨hk, hm⟩
    · rintro (⟨rfl, rfl⟩ | ⟨hne, hm⟩)
      · obtain ⟨entry, hm, he⟩ := List.mem_map.mp hmem
        exact ⟨entry, hm, if_pos he⟩
      · exact ⟨_, hm, if_neg hne⟩
  · next hmem =>
    rw [List.mem_append, List.mem_singleton, Prod.mk.injEq]
    constructor
    · rintro (hm | he)
      · refine Or.inr ⟨?_, hm⟩
        rintro rfl
        exact hmem (List.mem_map_of_mem hm)
      · exact Or.inl he
    · rintro (he | ⟨_, hm⟩)
      · exact Or.inr he
      · exact Or.inl hm

theorem get?_insert_self (fields : Fields α) (key : String) (value : α) :
    (fields.insert key value).get? key = some value :=
  get?_eq_some_iff.mpr (mem_entries_insert.mpr (Or.inl ⟨rfl, rfl⟩))

theorem get?_insert_ne (fields : Fields α) (value : α) (hne : name ≠ key) :
    (fields.insert key value).get? name = fields.get? name :=
  Option.ext fun other => by simp [get?_eq_some_iff, mem_entries_insert, hne]

theorem mem_entries_erase :
    (name, other) ∈ (fields.erase key).entries ↔ name ≠ key ∧ (name, other) ∈ fields.entries := by
  simp [erase, and_comm]

theorem erase_of_get?_eq_none (hg : fields.get? key = none) : fields.erase key = fields := by
  have hkept : fields.entries.filter (fun entry => entry.1 ≠ key) = fields.entries := by
    refine List.filter_eq_self.mpr fun entry hm => decide_eq_true fun he => ?_
    rw [get?_eq_some_iff.mpr (he ▸ hm : (key, entry.2) ∈ fields.entries)] at hg
    cases hg
  rw [erase]
  congr

theorem mem_values_insert (hm : other ∈ (fields.insert key value).values) :
    other = value ∨ other ∈ fields.values := by
  obtain ⟨name, hm⟩ := mem_values_iff.mp hm
  rcases mem_entries_insert.mp hm with ⟨_, he⟩ | ⟨_, hm⟩
  · exact Or.inl he
  · exact Or.inr (mem_values_iff.mpr ⟨name, hm⟩)

theorem mem_values_insert_self : value ∈ (fields.insert key value).values :=
  mem_values_iff.mpr ⟨key, mem_entries_insert.mpr (Or.inl ⟨rfl, rfl⟩)⟩

theorem mem_values_insert_or (key : String) (value : α) (hm : other ∈ fields.values) :
    other ∈ (fields.insert key value).values ∨ fields.get? key = some other := by
  obtain ⟨name, hm⟩ := mem_values_iff.mp hm
  by_cases hk : name = key
  · exact Or.inr (get?_eq_some_iff.mpr (hk ▸ hm))
  · exact Or.inl (mem_values_iff.mpr ⟨name, mem_entries_insert.mpr (Or.inr ⟨hk, hm⟩)⟩)

theorem mem_values_erase (hm : other ∈ (fields.erase key).values) : other ∈ fields.values := by
  obtain ⟨name, hm⟩ := mem_values_iff.mp hm
  exact mem_values_iff.mpr ⟨name, (mem_entries_erase.mp hm).2⟩

theorem mem_values_erase_or (key : String) (hm : other ∈ fields.values) :
    other ∈ (fields.erase key).values ∨ fields.get? key = some other := by
  obtain ⟨name, hm⟩ := mem_values_iff.mp hm
  by_cases hk : name = key
  · exact Or.inr (get?_eq_some_iff.mpr (hk ▸ hm))
  · exact Or.inl (mem_values_iff.mpr ⟨name, mem_entries_erase.mpr ⟨hk, hm⟩⟩)

theorem entries_foldl_insert (entries : List (String × α)) :
    ∀ fields : Fields α, (fields.keys ++ entries.map Prod.fst).Nodup →
      (entries.foldl (fun fields entry => fields.insert entry.1 entry.2) fields).entries =
        fields.entries ++ entries := by
  induction entries with
  | nil => exact fun fields _ => (List.append_nil _).symm
  | cons entry entries ih =>
    intro fields hd
    have hnew : entry.1 ∉ fields.keys := fun hm =>
      (List.nodup_append.mp hd).2.2 _ hm _ (List.mem_cons_self ..) rfl
    have hinsert : (fields.insert entry.1 entry.2).entries = fields.entries ++ [entry] := by
      rw [insert, dif_neg hnew]
    rw [List.foldl_cons, ih, hinsert, List.append_assoc, List.singleton_append]
    rw [keys, hinsert, List.map_append, List.append_assoc]
    exact hd

theorem entries_ofList {entries : List (String × α)} (hd : (entries.map Prod.fst).Nodup) :
    (ofList entries).entries = entries := by
  rw [ofList, entries_foldl_insert entries empty hd]
  exact List.nil_append _

theorem values_ofList {entries : List (String × α)} (hd : (entries.map Prod.fst).Nodup) :
    (ofList entries).values = entries.map Prod.snd := by
  rw [values, entries_ofList hd]

/-! ## What is gained and what is lost -/

theorem get?_eq_find? (fields : Fields α) (key : String) :
    fields.get? key = (fields.entries.find? fun entry => entry.1 = key).map Prod.snd := by
  rw [get?]
  induction fields.entries with
  | nil => rfl
  | cons entry entries ih =>
    rw [List.lookup_cons, List.find?_cons]
    by_cases hk : entry.1 = key
    · simp [hk]
    · rw [beq_eq_false_iff_ne.mpr (Ne.symm hk)]
      simp [hk, ih]

theorem oneMatch_entries (fields : Fields α) (key : String) :
    OneMatch (fun entry => entry.1 = key) fields.entries := by
  refine (List.pairwise_map.mp fields.nodup).imp fun {a b} hne ha => ?_
  have hkey : a.1 = key := of_decide_eq_true ha
  exact decide_eq_false fun hb => hne (hkey.trans hb.symm)

/-- **A removal** takes away one value, if there is one. -/
theorem perm_values_erase (fields : Fields α) (key : String) :
    ((fields.get? key).toList ++ (fields.erase key).values).Perm fields.values := by
  have hperm := ((fields.oneMatch_entries key).perm_filter).map Prod.snd
  rw [List.map_append] at hperm
  rw [get?_eq_find?, values, values, erase]
  refine List.Perm.trans (List.Perm.of_eq ?_) hperm
  cases fields.entries.find? fun entry => entry.1 = key <;> simp

/-- **A write** adds one value, and takes away the one before. -/
theorem perm_values_insert (fields : Fields α) (key : String) (value : α) :
    ((fields.get? key).toList ++ (fields.insert key value).values).Perm (value :: fields.values) := by
  rw [get?_eq_find?, insert]
  split
  · next hk =>
    obtain ⟨entry, hm, he⟩ := List.mem_map.mp hk
    obtain ⟨found, hf⟩ : ∃ found, fields.entries.find? (fun entry => entry.1 = key) = some found :=
      Option.isSome_iff_exists.mp (List.find?_isSome.mpr ⟨entry, hm, decide_eq_true he⟩)
    have hperm := ((fields.oneMatch_entries key).perm_map fun _ => (key, value)).map Prod.snd
    rw [hf] at hperm ⊢
    simpa [values, overwrite] using hperm
  · next hk =>
    have hnone : fields.entries.find? (fun entry => entry.1 = key) = none := by
      refine List.find?_eq_none.mpr fun entry hm he => hk ?_
      exact List.mem_map.mpr ⟨entry, hm, of_decide_eq_true he⟩
    rw [hnone]
    show ((fields.entries ++ [(key, value)]).map Prod.snd).Perm (value :: fields.values)
    rw [List.map_append]
    exact List.perm_append_comm

end Fields

end ScriptCore
