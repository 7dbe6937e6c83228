import ScriptCore.Function
import ScriptCore.Json.Quoted
import ScriptCore.Json.Reading

/-!
# Function templates

The lasting form of a compiled function: its name, parameters, bytecode and constructor mark,
without scope and bound `this`. It is written as a JSON object, and read from one, in which the
parameters and the constructor mark may be missing and other names are passed over, or from an array
of the four in order, where only what comes last may be missing.
-/

namespace ScriptCore

structure Template where
  name : String
  parameterNames : List String
  bytecode : List UInt8
  isConstructor : Bool
deriving DecidableEq

namespace Template

/-! ## Reading -/

def texts? (w : Written) : Option (List String) :=
  w.items.bind fun items => items.mapM Written.text?

def bytes? (w : Written) : Option (List UInt8) :=
  w.items.bind fun items => items.mapM fun item => (item.count? 256).map UInt8.ofNat

def ofItems? : List Written → Option Template
  | [name, params, bytecode] => do
    return ⟨← name.text?, ← texts? params, ← bytes? bytecode, false⟩
  | [name, params, bytecode, isConstructor] => do
    return ⟨← name.text?, ← texts? params, ← bytes? bytecode, ← isConstructor.boolean?⟩
  | _ => none

/-- A template from the entries of an object. None of the four names may be repeated. -/
def ofEntries? (entries : List (Option String × Written)) : Option Template := do
  if entries.any fun entry => entry.1.isNone then none
  let name ← ← Written.valueAt? "name" entries
  let params ← Written.valueAt? "parameter_names" entries
  let bytecode ← ← Written.valueAt? "bytecode" entries
  let isConstructor ← Written.valueAt? "is_constructor" entries
  return ⟨← name.text?, ← (params.map texts?).getD (some []), ← bytes? bytecode,
    ← (isConstructor.map Written.boolean?).getD (some false)⟩

def ofWritten? : Written → Option Template
  | .array items => ofItems? items
  | .object entries => ofEntries? entries
  | _ => none

def ofText (text : String) : Option Template := (Written.ofText text).bind ofWritten?

/-! ## Writing -/

def entry (key : String) (value : List Char) : List Char := Json.quote key ++ ':' :: value

def toText (t : Template) : String :=
  String.ofList <| '\x7b' :: Json.separated [
    entry "name" (Json.quote t.name),
    entry "parameter_names" (Json.bracketed (t.parameterNames.map Json.quote)),
    entry "bytecode" (Json.bracketed (t.bytecode.map fun b => Nat.toDigits 10 b.toNat)),
    entry "is_constructor" (if t.isConstructor then "true".toList else "false".toList)] ++ ['\x7d']

/-! ## Templates and functions -/

def callable (t : Template) : Callable :=
  ⟨t.name, t.parameterNames, t.isConstructor, none, .compiled t.bytecode none⟩

def ofCallable? (f : Callable) : Option Template :=
  f.bytecode?.map fun bytecode => ⟨f.name, f.params, bytecode, f.isConstructor⟩

end Template

namespace Heap

def template? (h : Heap) (id : NodeId) : Option Template :=
  (h.callableOf? id).bind Template.ofCallable?

end Heap

namespace HeapM

def newFromTemplate (t : Template) : HeapM NodeId := newFunction t.callable

end HeapM

end ScriptCore
