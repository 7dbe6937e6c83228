import ScriptCore.Heap.Collect
import ScriptCore.Json.Basic
import ScriptCore.Object.Field

/-!
# Snapshots

A value as a finite tree that says nothing about nodes, so that it can be shown outside the heap.
Where a container is met inside itself, the tree says how many levels up it is. A container inside
twelve others is cut off. Functions and strings are leaves.
-/

namespace ScriptCore

inductive Snapshot where
  | undefined
  | null
  | boolean (b : Bool)
  | integer (n : Int)
  | double (d : Double)
  | text (s : String)
  | array (items : List Snapshot)
  | object (entries : List (String × Snapshot))
  | function (name : String) (kind : CallKind) (params : List String) (isConstructor : Bool)
  /-- the container so many levels up, the direct parent being the first -/
  | cycle (levels : Nat)
  /-- a container that is cut off -/
  | deep
  /-- there is no value here -/
  | absent

namespace Snapshot

def maxDepth : Nat := 12

def ofNat (n : Nat) : Snapshot := .integer n

def texts (items : List String) : Snapshot := .array (items.map .text)

def orNull {α : Type} (x : Option α) (toSnapshot : α → Snapshot) : Snapshot :=
  (x.map toSnapshot).getD .null

def ofNat? (n : Option Nat) : Snapshot := orNull n ofNat

/-- A JSON value, with room for so many more containers inside one another. -/
def ofJsonWithin (room : Nat) : Json → Snapshot
  | .null => .null
  | .boolean b => .boolean b
  | .integer n => .integer n.toInt
  | .double d => .double d
  | .string s => .text s
  | .array items =>
    match room with
    | 0 => .deep
    | room + 1 => .array (items.map fun item => ofJsonWithin room item)
  | .object entries =>
    match room with
    | 0 => .deep
    | room + 1 => .object (entries.map fun (key, json) => (key, ofJsonWithin room json))

def ofJson (json : Json) : Snapshot := ofJsonWithin maxDepth json

end Snapshot

namespace Callable

def snapshot (f : Callable) : Snapshot := .function f.name f.kind f.params f.isConstructor

end Callable

namespace Heap

/-- A value inside the containers `enclosing`, innermost first, with room for so many more. -/
def snapshotWithin (h : Heap) (room : Nat) (enclosing : List NodeId) (v : Value) : Snapshot :=
  match v with
  | .undefined => .undefined
  | .null => .null
  | .boolean b => .boolean b
  | .integer n => .integer n.toInt
  | .double d => .double d
  | .object id =>
    match h.object? id with
    | none => .absent
    | some o =>
      match o.exotic with
      | .string text => .text text
      | .function f => f.snapshot
      | .array elements =>
        match enclosing.idxOf? id, room with
        | some level, _ => .cycle (level + 1)
        | none, 0 => .deep
        | none, room + 1 =>
          .array (elements.toList.map fun e => h.snapshotWithin room (id :: enclosing) e)
      | .ordinary =>
        match enclosing.idxOf? id, room with
        | some level, _ => .cycle (level + 1)
        | none, 0 => .deep
        | none, room + 1 =>
          .object (o.fields.entries.map fun (key, e) =>
            (key, h.snapshotWithin room (id :: enclosing) e))

def snapshot (h : Heap) (v : Value) : Snapshot := h.snapshotWithin Snapshot.maxDepth [] v

def snapshot? (h : Heap) (v : Option Value) : Snapshot := (v.map h.snapshot).getD .absent

end Heap

end ScriptCore
