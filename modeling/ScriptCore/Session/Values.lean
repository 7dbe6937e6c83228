import ScriptCore.Comparison
import ScriptCore.Json.Bridge
import ScriptCore.Json.Reading
import ScriptCore.Session.State

/-!
# Steps about values

Operators, comparison, conversion, text and JSON.
-/

namespace ScriptCore

namespace Facts

def orderName : Ordering → String
  | .lt => "less"
  | .eq => "equal"
  | .gt => "greater"

def kindName : ObjectKind → String
  | .ordinary => "object"
  | .array => "array"
  | .string => "string"
  | .function => "function"

def predicates (h : Heap) (v : Value) : List String :=
  let isNumber := v.numeric?.isSome
  [("undefined", v == .undefined),
    ("null", v == .null),
    ("null_or_undefined", v == .null || v == .undefined),
    ("boolean", match v with | .boolean _ => true | _ => false),
    ("integer", match v with | .integer _ => true | _ => false),
    ("double", match v with | .double _ => true | _ => false),
    ("number", isNumber),
    ("object", v.id?.isSome),
    ("string", h.isString v),
    ("array", h.isArray v),
    ("function", h.isFunction v)].filterMap fun (name, holds) => if holds then some name else none

def convertedSnapshot (h : Heap) : Converted → Snapshot
  | .any v => h.snapshot v
  | .boolean b => .boolean b
  | .double d => .double d
  | .integer n => .integer n
  | .text s => .text s
  | .object (some id) => h.snapshot (.object id)
  | .object none => .absent
  | .list items => .array (items.map (convertedSnapshot h))

/-- A host value as a script value, which the caller holds. -/
def hostValue : HostValue → HeapM Value
  | .boolean b => return .boolean b
  | .integer n => return .integer n
  | .size n => return .ofNat n
  | .double d => return .double d
  | .text s | .present s => HeapM.newText s
  | .absent | .null => return .null
  | .undefined => return .undefined

def inspection (h : Heap) (v : Value) : List (String × Snapshot) :=
  [("display", .text (h.display v)),
    ("debug", .text (h.displayNested v)),
    ("str", .text (h.toText v)),
    ("typeof", .text (h.typeName v)),
    ("bool", .boolean (h.truth v)),
    ("number", .double (h.toNumber v)),
    ("text", .orNull (h.text? v) .text),
    ("kind", .orNull ((h.kind? v).map kindName) .text)]

def textFacts (a b : String) : List (String × Snapshot) :=
  [("len", .ofNat a.utf8ByteSize),
    ("empty", .boolean a.isEmpty),
    ("display", .text a),
    ("debug", .text (Text.quote a)),
    ("cmp", .text (orderName (compare a b))),
    ("eq", .boolean (a == b)),
    ("eq_text", .boolean (a == b)),
    ("same", .boolean false),
    ("same_clone", .boolean true)]

end Facts

namespace ValueRequest

open Facts

def perform : ValueRequest → StepM Outcome
  | .parseNumber text => .fact "v" (.double (Numeral.ofText text))
  | .formatDouble d => .fact "text" (.text d.text)
  | .binary op a b => do
    let a ← .take a
    let b ← .take b
    return .value (← HeapM.binary op a b)
  | .unary op a => do
    let a ← .take a
    return .value (Operator.unary op a)
  | .equality a b => do
    let a ← .take a
    let b ← .take b
    return .facts [
      ("loose", .boolean ((← StepM.heap).looseEquals a b)),
      ("strict", .boolean (a.strictEquals b))]
  | .order a b => do
    let a ← .take a
    let b ← .take b
    let order := (← StepM.heap).compare a b
    return .facts [
      ("cmp", .text (orderName order)),
      ("lt", .boolean order.isLT),
      ("le", .boolean order.isLE),
      ("gt", .boolean order.isGT),
      ("ge", .boolean order.isGE)]
  | .keyEquality a b => do
    let a ← .take a
    let b ← .take b
    let h ← .heap
    return .facts [
      ("hash_eq", .boolean (h.hashFeed a == h.hashFeed b)),
      ("key_eq", .boolean (a.sameKey b))]
  | .sort items => do
    let items ← .takeAll items
    let h ← .heap
    .fact "v" (.array ((h.sorted items).map h.snapshot))
  | .inspect v => do
    let v ← .take v
    return .facts (inspection (← StepM.heap) v)
  | .display v => do
    let v ← .take v
    .fact "text" (.text ((← StepM.heap).display v))
  | .predicates v => do
    let v ← .take v
    .fact "is" (.texts (Facts.predicates (← StepM.heap) v))
  | .convert target v => do
    let v ← .take v
    let h ← .heap
    .fact "v" (convertedSnapshot h (h.convert target v))
  | .check target v => do
    let v ← .take v
    let h ← .heap
    match h.check target v with
    | .ok converted => .fact "v" (convertedSnapshot h converted)
    | .error e =>
      e.value?.forM fun v => HeapM.hold v
      .fail (.error e)
  | .fromHost x => return .value (← hostValue x)
  | .compareTexts a b => return .facts (textFacts a b)
  | .fromJson text =>
    match Json.ofText text with
    | some json => return .value (← HeapM.ofJson json)
    | none => .fail .jsonSyntax
  | .toJson v => do
    let v ← .take v
    let json ← .orFail ((← StepM.heap).toJson v)
    .fact "json" (.ofJson json)

end ValueRequest

end ScriptCore
