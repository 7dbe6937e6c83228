import ScriptCore.Display

/-!
# Equality and order

Loose equality and the order of values, both by the same steps. Undefined comes first. If one side
is a string, both are compared as text; numbers are compared as numbers; arrays element by element;
functions as callables; and any two other things are equal only if they are the same object. Values
that have no order between them count as `lt`, whichever way round they are compared.

Arrays inside arrays are followed to a depth of 64. Deeper ones are equal only if they are the same.
-/

namespace ScriptCore

namespace Comparison

def maxDepth : Nat := 64

/-- What two values that are neither undefined, nor with a string among them, are compared as. -/
inductive Pairing where
  | numbers (a b : Numeric)
  | same
  | arrays (xs ys : List Value)
  | callables (f g : Callable)
  | unrelated

end Comparison

open Comparison (Pairing)

namespace Heap

def pairObjects (h : Heap) (a b : NodeId) : Pairing :=
  if a = b then .same
  else
    match (h.object? a).map Object.exotic, (h.object? b).map Object.exotic with
    | some (.array xs), some (.array ys) => .arrays xs.toList ys.toList
    | some (.function f), some (.function g) => .callables f g
    | _, _ => .unrelated

def pair (h : Heap) (a b : Value) : Pairing :=
  match a.numeric?, b.numeric? with
  | some x, some y => .numbers x y
  | _, _ =>
    match a, b with
    | .object x, .object y => h.pairObjects x y
    | _, _ => .unrelated

/-- Loose equality, with room for so many more arrays inside one another. -/
def looseEqualsWithin (h : Heap) (room : Nat) (a b : Value) : Bool :=
  if a = .undefined ∨ b = .undefined then a = b
  else if h.isString a || h.isString b then h.toText a == h.toText b
  else
    match h.pair a b with
    | .numbers x y => x.compare? y == some .eq
    | .same => true
    | .arrays xs ys =>
      match room with
      | 0 => false
      | room + 1 =>
        xs.length == ys.length && (xs.zip ys).all fun (x, y) => h.looseEqualsWithin room x y
    | .callables f g => f.compare h.places g == .eq
    | .unrelated => false

def looseEquals (h : Heap) (a b : Value) : Bool := h.looseEqualsWithin Comparison.maxDepth a b

/-- The order of two values, with room for so many more arrays inside one another. -/
def compareWithin (h : Heap) (room : Nat) (a b : Value) : Ordering :=
  if a = .undefined then (if b = .undefined then .eq else .lt)
  else if b = .undefined then .gt
  else if h.isString a || h.isString b then compare (h.toText a) (h.toText b)
  else
    match h.pair a b with
    | .numbers x y => (x.compare? y).getD .lt
    | .same => .eq
    | .arrays xs ys =>
      match room with
      | 0 => .lt
      | room + 1 => compareLists (fun x y => h.compareWithin room x y) xs ys
    | .callables f g => f.compare h.places g
    | .unrelated => .lt

def compare (h : Heap) (a b : Value) : Ordering := h.compareWithin Comparison.maxDepth a b

end Heap

/-! ## Sorting -/

namespace Comparison

/-- Put a value into a list that is sorted from its greatest to its least, in front of those that it
is not less than. -/
def insertDescending {α : Type} (less : α → α → Bool) (x : α) : List α → List α
  | [] => [x]
  | y :: ys => if less x y then y :: insertDescending less x ys else x :: y :: ys

/-- Sort by inserting one after another. Equal values keep their order. -/
def sort {α : Type} (less : α → α → Bool) (xs : List α) : List α :=
  (xs.foldl (fun sorted x => insertDescending less x sorted) []).reverse

end Comparison

namespace Heap

def sorted (h : Heap) (vs : List Value) : List Value :=
  Comparison.sort (fun a b => h.compare a b == .lt) vs

end Heap

/-! ## Keys -/

/-- What a value adds to a hash. Scalars are hashed as numbers, undefined and null as zero; strings
by their text; other objects by which object they are. -/
inductive HashFeed where
  | number (d : Double)
  | text (s : String)
  | identity (id : NodeId)
deriving DecidableEq

namespace Heap

/-- What a value adds to a hash. Both zeros add the same. -/
def hashFeed (h : Heap) (v : Value) : HashFeed :=
  match v with
  | .undefined => .number (.zero false)
  | .object id =>
    match h.text? v with
    | some text => .text text
    | none => .identity id
  | scalar =>
    let d := (scalar.numeric?.map Numeric.toDouble).getD (.zero false)
    .number (if d.isZero then .zero false else d)

end Heap

end ScriptCore
