import ScriptCore.Number.Double

/-!
# JSON values

Numbers are 64-bit integers or finite doubles, and the entries of an object are sorted by name, each
name once.
-/

namespace ScriptCore

inductive Json where
  | null
  | boolean (b : Bool)
  | integer (n : Int64)
  | double (d : Double)
  | string (s : String)
  | array (items : List Json)
  | object (entries : List (String × Json))

namespace Json

/-- Write an entry into sorted entries, in place of one of the same name. -/
def insertEntry {α : Type} (key : String) (value : α) : List (String × α) → List (String × α)
  | [] => [(key, value)]
  | (k, v) :: rest =>
    if key < k then (key, value) :: (k, v) :: rest
    else if k < key then (k, v) :: insertEntry key value rest
    else (key, value) :: rest

/-- Entries sorted by name; of several with one name the last one stands. -/
def sortEntries {α : Type} (entries : List (String × α)) : List (String × α) :=
  entries.foldl (fun sorted entry => insertEntry entry.1 entry.2 sorted) []

end Json

end ScriptCore
