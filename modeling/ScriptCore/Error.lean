import ScriptCore.Display

/-!
# Errors

What can go wrong, and how it is put into words. An error that carries a value holds it.
-/

namespace ScriptCore

inductive Error where
  /-- a checked conversion cannot produce the target from this value -/
  | invalidConversion (value : Value) (target : String)
  /-- this value is no function -/
  | notCallable (value : Value)
  | wrongArgCount (function : String)
  | wrongArgType (function : String)
  /-- a value on its way to a handler -/
  | thrown (value : Value)
  /-- the engine in use does not run functions of this kind -/
  | unsupported (kind : CallKind) (function : String)
  /-- bytecode was called that has not been given a scope -/
  | unboundTemplate (function : String)
  | prototypeCycle
  | undefinedVariable (name : String)
  | constAssignment (name : String)
  | cyclicStructure
  | nestingTooDeep (limit : Nat)
  | configuration (message : String)
deriving DecidableEq

namespace CallKind

def text : CallKind → String
  | .native => "native"
  | .closure => "closure"
  | .interpreted => "interpreted"
  | .compiled => "compiled"

end CallKind

namespace Heap

def typeName (h : Heap) (v : Value) : String :=
  match v with
  | .undefined => "undefined"
  | .null => "null"
  | .boolean _ => "boolean"
  | .integer _ => "integer"
  | .double _ => "double"
  | .object _ =>
    match h.kind? v with
    | some .string => "string"
    | some .array => "array"
    | some .function => "function"
    | _ => "object"

end Heap

namespace Error

def value? : Error → Option Value
  | .invalidConversion v _ | .notCallable v | .thrown v => some v
  | _ => none

def message (h : Heap) : Error → String
  | .invalidConversion v target =>
    "InvalidConversion: cannot convert " ++ h.typeName v ++ " \x60" ++ h.display v ++ "\x60 to " ++
      target
  | .notCallable v => "TypeError: " ++ h.display v ++ " is not a function"
  | .wrongArgCount f => "TypeError: wrong number of arguments to " ++ f
  | .wrongArgType f => "TypeError: wrong type of argument to " ++ f
  | .thrown v => "Uncaught " ++ h.display v
  | .unsupported kind f => "Unsupported: engine cannot invoke " ++ kind.text ++ " function " ++ f
  | .unboundTemplate f => "TypeError: compiled function " ++ f ++ " has no closure environment"
  | .prototypeCycle => "TypeError: cyclic __proto__ value"
  | .undefinedVariable name => "ReferenceError: " ++ name ++ " is not defined"
  | .constAssignment name => "TypeError: assignment to constant variable " ++ name
  | .cyclicStructure => "TypeError: converting circular structure to JSON"
  | .nestingTooDeep limit =>
    "RangeError: structure nested deeper than " ++ toString limit ++ " levels"
  | .configuration message => "ConfigError: " ++ message

end Error

end ScriptCore
