import Mathlib
import ScriptCore.Json.Reading

/-!
# The entries of JSON objects

Entries are sorted by insertion, so their names ascend (`Json.ascending_sortEntries`), and entries
whose names ascend stay as they are (`Json.sortEntries_of_ascending`). Every object in a JSON value
that was read from a text has been sorted like that, and no name stands twice in it
(`Json.sorted_ofText`).
-/

namespace ScriptCore

namespace Json

variable {α : Type} {entries : List (String × α)} {entry : String × α} {key : String} {value : α}

def Ascending (entries : List (String × α)) : Prop := entries.Pairwise fun a b => a.1 < b.1

theorem Ascending.nodup (ha : Ascending entries) : (entries.map Prod.fst).Nodup :=
  List.pairwise_map.mpr (ha.imp fun hlt => ne_of_lt hlt)

theorem mem_insertEntry (hm : entry ∈ insertEntry key value entries) :
    entry = (key, value) ∨ entry ∈ entries := by
  induction entries with
  | nil => exact Or.inl (List.mem_singleton.mp hm)
  | cons first rest ih =>
    rw [insertEntry] at hm
    split at hm
    · exact List.mem_cons.mp hm
    · split at hm
      · rcases List.mem_cons.mp hm with rfl | hm
        · exact Or.inr (List.mem_cons_self ..)
        · exact (ih hm).imp_right (List.mem_cons_of_mem _)
      · exact (List.mem_cons.mp hm).imp_right (List.mem_cons_of_mem _)

theorem Ascending.insertEntry (ha : Ascending entries) :
    Ascending (insertEntry key value entries) := by
  induction entries with
  | nil => exact List.pairwise_singleton ..
  | cons first rest ih =>
    obtain ⟨hfirst, hrest⟩ := List.pairwise_cons.mp ha
    rw [Json.insertEntry]
    split
    · next hlt =>
      refine List.pairwise_cons.mpr ⟨fun entry hm => ?_, ha⟩
      rcases List.mem_cons.mp hm with rfl | hm
      · exact hlt
      · exact lt_trans hlt (hfirst entry hm)
    · next hge =>
      split
      · next hgt =>
        refine List.pairwise_cons.mpr ⟨fun entry hm => ?_, ih hrest⟩
        rcases mem_insertEntry hm with rfl | hm
        · exact hgt
        · exact hfirst entry hm
      · next hle =>
        -- Neither name is less, so they are the same.
        obtain rfl : key = first.1 := le_antisymm (not_lt.mp hle) (not_lt.mp hge)
        exact List.pairwise_cons.mpr ⟨hfirst, hrest⟩

theorem mem_foldl_insertEntry {more : List (String × α)} :
    ∀ {sorted : List (String × α)},
      entry ∈ more.foldl (fun sorted entry => insertEntry entry.1 entry.2 sorted) sorted →
        entry ∈ more ∨ entry ∈ sorted := by
  induction more with
  | nil => exact fun hm => Or.inr hm
  | cons first rest ih =>
    intro sorted hm
    rcases ih hm with hm | hm
    · exact Or.inl (List.mem_cons_of_mem _ hm)
    · refine (mem_insertEntry hm).imp_left fun (he : entry = first) => ?_
      exact he ▸ List.mem_cons_self ..

theorem mem_sortEntries (hm : entry ∈ sortEntries entries) : entry ∈ entries :=
  (mem_foldl_insertEntry hm).resolve_right List.not_mem_nil

/-- **Sorted entries ascend.** -/
theorem ascending_sortEntries (entries : List (String × α)) : Ascending (sortEntries entries) := by
  have hfold (more : List (String × α)) : ∀ {sorted : List (String × α)}, Ascending sorted →
      Ascending (more.foldl (fun sorted entry => insertEntry entry.1 entry.2 sorted) sorted) := by
    induction more with
    | nil => exact fun hs => hs
    | cons first rest ih => exact fun hs => ih hs.insertEntry
  exact hfold entries List.Pairwise.nil

theorem insertEntry_of_lt (hlt : ∀ entry ∈ entries, entry.1 < key) :
    insertEntry key value entries = entries ++ [(key, value)] := by
  induction entries with
  | nil => rfl
  | cons first rest ih =>
    have hfirst := hlt first (List.mem_cons_self ..)
    rw [insertEntry, if_neg (not_lt.mpr hfirst.le), if_pos hfirst,
      ih fun entry hm => hlt entry (List.mem_cons_of_mem _ hm), List.cons_append]

theorem foldl_insertEntry_of_ascending :
    ∀ sorted : List (String × α), Ascending (sorted ++ entries) →
      entries.foldl (fun sorted entry => insertEntry entry.1 entry.2 sorted) sorted =
        sorted ++ entries := by
  induction entries with
  | nil => exact fun _ _ => (List.append_nil _).symm
  | cons entry entries ih =>
    intro sorted ha
    have hlt : ∀ other ∈ sorted, other.1 < entry.1 := fun other hm =>
      (List.pairwise_append.mp ha).2.2 other hm entry (List.mem_cons_self ..)
    rw [List.append_cons] at ha ⊢
    rw [List.foldl_cons, insertEntry_of_lt hlt, ih _ ha]

/-- **Entries that ascend are sorted.** -/
theorem sortEntries_of_ascending (ha : Ascending entries) :
    sortEntries entries = entries := foldl_insertEntry_of_ascending [] ha

/-- The names of all objects in a JSON value ascend. -/
inductive Sorted : Json → Prop
  | null : Sorted .null
  | boolean (b : Bool) : Sorted (.boolean b)
  | integer (n : Int64) : Sorted (.integer n)
  | double (d : Double) : Sorted (.double d)
  | string (s : String) : Sorted (.string s)
  | array {items : List Json} (hi : ∀ item ∈ items, Sorted item) : Sorted (.array items)
  | object {entries : List (String × Json)} (ha : Ascending entries)
      (he : ∀ entry ∈ entries, Sorted entry.2) : Sorted (.object entries)

theorem Sorted.of_mem_items {items : List Json} (hs : (Json.array items).Sorted) {item : Json}
    (hm : item ∈ items) : item.Sorted := by
  cases hs with
  | array hi => exact hi item hm

theorem Sorted.ascending {entries : List (String × Json)} (hs : (Json.object entries).Sorted) :
    Ascending entries := by
  cases hs with
  | object ha _ => exact ha

theorem Sorted.of_mem_entries {entries : List (String × Json)} (hs : (Json.object entries).Sorted)
    {entry : String × Json} (hm : entry ∈ entries) : entry.2.Sorted := by
  cases hs with
  | object _ he => exact he entry hm

end Json

open Json

theorem WrittenNumber.sorted_toJson? {n : WrittenNumber} {json : Json}
    (hj : n.toJson? = some json) : json.Sorted := by
  rw [toJson?] at hj
  have hdouble (hj : n.toDouble?.map Json.double = some json) : json.Sorted := by
    obtain ⟨d, _, rfl⟩ := Option.map_eq_some_iff.mp hj
    exact .double d
  split at hj
  · split at hj
    · obtain rfl := Option.some.inj hj
      exact .integer _
    · exact hdouble hj
  · exact hdouble hj

namespace Written

mutual

theorem sorted_toJson? {room : Nat} {json : Json} : ∀ w : Written,
    w.toJson? room = some json → json.Sorted
  | .null, hj => by
    obtain rfl := Option.some.inj hj
    exact .null
  | .boolean b, hj => by
    obtain rfl := Option.some.inj hj
    exact .boolean b
  | .number n, hj => n.sorted_toJson? hj
  | .string s, hj => by
    obtain ⟨s, _, rfl⟩ := Option.map_eq_some_iff.mp hj
    exact .string s
  | .array items, hj => by
    rw [toJson?] at hj
    split at hj
    · cases hj
    · obtain ⟨_, hi, rfl⟩ := Option.map_eq_some_iff.mp hj
      exact .array (sorted_itemsToJson? items hi)
  | .object entries, hj => by
    rw [toJson?] at hj
    split at hj
    · cases hj
    · obtain ⟨_, he, rfl⟩ := Option.map_eq_some_iff.mp hj
      refine .object (ascending_sortEntries _) fun entry hm => ?_
      exact sorted_entriesToJson? entries he entry (mem_sortEntries hm)

theorem sorted_itemsToJson? {room : Nat} {jsons : List Json} : ∀ items : List Written,
    itemsToJson? room items = some jsons → ∀ json ∈ jsons, json.Sorted
  | [], hj => by
    obtain rfl := Option.some.inj hj
    exact fun json hm => absurd hm List.not_mem_nil
  | item :: items, hj => by
    obtain ⟨first, hf, hj⟩ := Option.bind_eq_some_iff.mp hj
    obtain ⟨rest, hr, hj⟩ := Option.bind_eq_some_iff.mp hj
    obtain rfl := Option.some.inj hj
    intro json hm
    rcases List.mem_cons.mp hm with rfl | hm
    · exact sorted_toJson? item hf
    · exact sorted_itemsToJson? items hr json hm

theorem sorted_entriesToJson? {room : Nat} {jsons : List (String × Json)} :
    ∀ entries : List (Option String × Written),
      entriesToJson? room entries = some jsons → ∀ entry ∈ jsons, entry.2.Sorted
  | [], hj => by
    obtain rfl := Option.some.inj hj
    exact fun entry hm => absurd hm List.not_mem_nil
  | (key, value) :: entries, hj => by
    obtain ⟨name, _, hj⟩ := Option.bind_eq_some_iff.mp hj
    obtain ⟨first, hf, hj⟩ := Option.bind_eq_some_iff.mp hj
    obtain ⟨rest, hr, hj⟩ := Option.bind_eq_some_iff.mp hj
    obtain rfl := Option.some.inj hj
    intro entry hm
    rcases List.mem_cons.mp hm with rfl | hm
    · exact sorted_toJson? value hf
    · exact sorted_entriesToJson? entries hr entry hm

end

end Written

/-- **What a text writes is sorted.** -/
theorem Json.sorted_ofText {text : String} {json : Json} (hj : ofText text = some json) :
    json.Sorted := by
  obtain ⟨w, _, hj⟩ := Option.bind_eq_some_iff.mp hj
  exact w.sorted_toJson? hj

end ScriptCore
