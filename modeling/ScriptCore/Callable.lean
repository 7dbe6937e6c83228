import ScriptCore.Value

/-!
# Callables

What makes an object a function: a name, parameters, possibly a fixed `this`, and a body. A body is
one of the host's native functions, a host closure with its own state, a script that an evaluator
runs in a scope, or bytecode, which is a template until it is given a scope.

Callables are ordered by kind, name, constructor mark and what stands behind them, so that every
copy of one template is equal to it. Bytecode is compared byte by byte. Native functions, closures,
script bodies and scopes are compared by where they stand in memory, of which nothing is known but that
no two of one sort stand in the same place (`Places`).
-/

namespace ScriptCore

/-- The host's native functions. -/
inductive NativeCode where
  /-- returns undefined -/
  | undef
  /-- returns `this` -/
  | self
  /-- returns the first argument -/
  | first
  /-- returns the number of arguments -/
  | count
  /-- returns a new array of the arguments -/
  | array
  /-- adds exactly two arguments -/
  | sum
  /-- always refuses the type of its arguments -/
  | refuse
  /-- throws the first argument -/
  | throw
  /-- reads the field `tag` of `this` -/
  | tag
  /-- stores the first argument in the field `stored` of `this` -/
  | store
  /-- calls the first argument with the same `this` and the other arguments -/
  | apply
deriving DecidableEq

/-- A host closure and the state it keeps between calls. -/
inductive Closure where
  /-- returns what it captured -/
  | const (captured : Value)
  /-- counts on from its last count -/
  | counter (last : Int64)
  /-- throws what it captured -/
  | raise (captured : Value)
  /-- stores its first argument in the field `last` of what it captured, and returns it -/
  | record (captured : Value)
deriving DecidableEq

/-- What an evaluator does with the body of an interpreted function. -/
inductive ScriptCode where
  /-- adds the variables `a` and `b` -/
  | sum
  /-- returns `this` -/
  | self
  /-- returns the name of the function -/
  | name
  /-- reads a variable -/
  | get (target : String)
  /-- adds one to a variable -/
  | increment (target : String)
  /-- nothing that the evaluator can run -/
  | foreign
deriving DecidableEq

/-- A script body. Bodies are told apart by identity, not by what they do. -/
structure Script where
  identity : Nat
  code : ScriptCode
deriving DecidableEq

/-- Which implementation stands behind a callable. -/
inductive CallKind where
  | native
  | closure
  | interpreted
  | compiled
deriving DecidableEq

/-- What runs when a function is called. -/
inductive Body where
  | native (code : NativeCode)
  | closure (identity : Nat) (state : Closure)
  | interpreted (script : Script) (scope : NodeId)
  | compiled (bytecode : List UInt8) (scope : Option NodeId)
deriving DecidableEq

structure Callable where
  name : String
  params : List String
  /-- Shown when the function is written out, and compared, but without effect on calls. -/
  isConstructor : Bool
  boundThis : Option Value
  body : Body
deriving DecidableEq

namespace CallKind

def rank : CallKind → Nat
  | .native => 0
  | .closure => 1
  | .interpreted => 2
  | .compiled => 3

end CallKind

namespace NativeCode

def rank (code : NativeCode) : Nat := code.ctorIdx

theorem rank_injective : Function.Injective rank := fun a b he => by
  have hcode := congrArg ofNat he
  rwa [rank, rank, ofNat_ctorIdx, ofNat_ctorIdx] at hcode

end NativeCode

/-- Where things stand in memory, each in a place of its own. They are named by numbers that are given
out once, while a place is given out again when what stood there is gone: of two things that are never
there at one time, either may come first. -/
structure Places (κ : Type) where
  native : NativeCode → κ
  closure : Nat → κ
  script : Nat → κ
  scope : NodeId → κ
  native_injective : Function.Injective native
  closure_injective : Function.Injective closure
  script_injective : Function.Injective script
  scope_injective : Function.Injective scope

/-- Everything stands in the order in which it was made. -/
def Places.numbers : Places Nat where
  native := NativeCode.rank
  closure := id
  script := id
  scope := id
  native_injective := NativeCode.rank_injective
  closure_injective _ _ he := he
  script_injective _ _ he := he
  scope_injective _ _ he := he

namespace Closure

/-- The references that a closure holds. The collector cannot see them. -/
def references : Closure → List NodeId
  | .const v | .raise v | .record v => v.references
  | .counter _ => []

end Closure

/-- Lexicographic order of lists by an order of their members; a proper beginning comes first. -/
def compareLists {α β : Type} (cmp : α → β → Ordering) : List α → List β → Ordering
  | [], [] => .eq
  | [], _ :: _ => .lt
  | _ :: _, [] => .gt
  | x :: xs, y :: ys => (cmp x y).then (compareLists cmp xs ys)

namespace Body

def kind : Body → CallKind
  | .native _ => .native
  | .closure .. => .closure
  | .interpreted .. => .interpreted
  | .compiled .. => .compiled

/-- The order of two bodies of one kind; bodies of different kinds count as equal here. -/
def compare {κ : Type} [Ord κ] (p : Places κ) : Body → Body → Ordering
  | .native a, .native b => Ord.compare (p.native a) (p.native b)
  | .closure a _, .closure b _ => Ord.compare (p.closure a) (p.closure b)
  | .interpreted a s, .interpreted b t =>
    (Ord.compare (p.script a.identity) (p.script b.identity)).then
      (Ord.compare (p.scope s) (p.scope t))
  | .compiled a _, .compiled b _ => compareLists Ord.compare a b
  | _, _ => .eq

/-- The references of a body that the collector can see: the scope it runs in. -/
def tracedReferences : Body → List NodeId
  | .interpreted _ scope => [scope]
  | .compiled _ scope => scope.toList
  | .native _ | .closure .. => []

/-- The references of a body that the collector cannot see: what a closure captured. -/
def hiddenReferences : Body → List NodeId
  | .closure _ state => state.references
  | .native _ | .interpreted .. | .compiled .. => []

end Body

namespace Callable

def kind (f : Callable) : CallKind := f.body.kind

/-- All references that a callable holds: its `this`, its scope, and what a closure captured. -/
def references (f : Callable) : List NodeId :=
  f.boundThis.toList.flatMap Value.references ++ f.body.tracedReferences ++ f.body.hiddenReferences

def bytecode? (f : Callable) : Option (List UInt8) :=
  match f.body with
  | .compiled bytecode _ => some bytecode
  | _ => none

def isTemplate (f : Callable) : Bool :=
  match f.body with
  | .compiled _ none => true
  | _ => false

def compare {κ : Type} [Ord κ] (p : Places κ) (f g : Callable) : Ordering :=
  (Ord.compare f.kind.rank g.kind.rank).then <|
    (Ord.compare f.name g.name).then <|
      (Ord.compare f.isConstructor.toNat g.isConstructor.toNat).then (f.body.compare p g.body)

end Callable

end ScriptCore
