/-!
# Fields

A table from names to values that remembers the order of insertion. Writing to a name that is
present keeps its place, a removed name leaves the order of the others, and a name that comes back
goes to the end.
-/

namespace ScriptCore

/-- Named entries in order of insertion, each name once. -/
structure Fields (α : Type) where
  entries : List (String × α)
  nodup : (entries.map Prod.fst).Nodup

namespace Fields

variable {α : Type}

def empty : Fields α := ⟨[], List.nodup_nil⟩

instance : Inhabited (Fields α) := ⟨empty⟩

def keys (fields : Fields α) : List String := fields.entries.map Prod.fst

def values (fields : Fields α) : List α := fields.entries.map Prod.snd

def size (fields : Fields α) : Nat := fields.entries.length

def get? (fields : Fields α) (key : String) : Option α := fields.entries.lookup key

/-- Entries with the value at a name replaced; the names stay as they are. -/
def overwrite (key : String) (value : α) (entries : List (String × α)) : List (String × α) :=
  entries.map fun entry => if entry.1 = key then (key, value) else entry

theorem map_fst_overwrite (key : String) (value : α) (entries : List (String × α)) :
    (overwrite key value entries).map Prod.fst = entries.map Prod.fst := by
  simp only [overwrite, List.map_map]
  apply List.map_congr_left
  intro entry _
  by_cases h : entry.1 = key <;> simp [h]

/-- Write a value under a name, in place if the name is there and at the end if not. -/
def insert (fields : Fields α) (key : String) (value : α) : Fields α :=
  if h : key ∈ fields.keys then
    ⟨overwrite key value fields.entries, by rw [map_fst_overwrite]; exact fields.nodup⟩
  else
    ⟨fields.entries ++ [(key, value)], by
      rw [List.map_append, List.nodup_append]
      refine ⟨fields.nodup, by simp, ?_⟩
      intro name hname other hother
      simp only [List.map_cons, List.map_nil, List.mem_singleton] at hother
      intro heq
      exact h (by rw [keys, ← hother, ← heq]; exact hname)⟩

def erase (fields : Fields α) (key : String) : Fields α :=
  ⟨fields.entries.filter fun entry => entry.1 ≠ key,
    List.Nodup.sublist (List.Sublist.map _ List.filter_sublist) fields.nodup⟩

/-- Fields from entries in order, the last value written to a name standing. -/
def ofList (entries : List (String × α)) : Fields α :=
  entries.foldl (fun fields entry => fields.insert entry.1 entry.2) empty

end Fields

end ScriptCore
