import ScriptCore.Comparison
import ScriptCore.Json.Quoted
import ScriptCore.Object.Accessor
import ScriptCore.Object.Attachment
import ScriptCore.Session.State
import ScriptCore.Session.Values

/-!
# Steps about objects

Creating objects, their fields, prototypes and payloads, and arrays and strings.
-/

namespace ScriptCore

namespace Release

def text (r : Release) : String :=
  let count := r.collected.toList.map fun n => Nat.toDigits 10 n
  String.ofList (Json.bracketed (Json.quote r.name :: count))

def snapshot (r : Release) : Snapshot :=
  .array (.text r.name :: r.collected.toList.map .ofNat)

end Release

namespace Facts

def description (h : Heap) (id : NodeId) (o : Object) : List (String × Snapshot) :=
  [("kind", .text (kindName o.kind)),
    ("class", .text o.className),
    ("payload", .boolean o.payload.isSome),
    ("proto", .boolean o.prototype.isSome),
    ("fields", .ofNat o.fields.size),
    ("debug", .text (h.displayNested (.object id)))]

/-- What there is to say about a payload; each kind of access finds only payloads of its own kind.
-/
def payload (h : Heap) (p : Option Payload) : List (String × Snapshot) :=
  [("has", .boolean p.isSome),
    ("i64", match p with | some (.integer n) => .integer n.toInt | _ => .null),
    ("string", match p with | some (.text s) => .text s | _ => .null),
    ("value", match p with | some (.value v) => h.snapshot v | _ => .null)]

def accessors (h : Heap) (id : NodeId) (key : String) : List (String × Snapshot) :=
  [("getter", .boolean (h.findGetter? id key).isSome),
    ("setter", .boolean (h.findSetter? id key).isSome)]

end Facts

namespace ObjectRequest

def makeFields : Fields Value → List (String × Literal) → StepM (Fields Value)
  | fields, [] => return fields
  | fields, (key, l) :: rest => do
    let v ← .orLetGo fields.values (.make l)
    (fields.get? key).forM fun old => HeapM.letGo old
    makeFields (fields.insert key v) rest

def makePayload : PayloadSpec → StepM Payload
  | .integer v => do
    let v ← .take v
    return .integer ((← .heap).toInteger v)
  | .text v => do
    let v ← .take v
    return .text ((← .heap).display v)
  | .value v => do
    return .value (← .take v)
  | .watch name collects => return .watch name collects

/-- The text of a string object at an index as a value, and the unit there. -/
def charFacts (id : NodeId) (index : Nat) : StepM Outcome := do
  let unit := ((← StepM.heap).text? (.object id)).bind fun text => Text.unitAt? text index
  let char ← HeapM.newText ((unit.map Text.ofUnit).getD "")
  StepM.keep char
  return .facts [
    ("char", ← .shown char),
    ("code", .ofNat (unit.getD 0))]

/-- Whether a write to an array was possible, and its length afterwards. -/
def lengthFacts (id : NodeId) (possible : Bool) : StepM Outcome := do
  return .facts [
    ("ok", .boolean possible),
    ("len", .ofNat? ((← StepM.heap).arrayLength? id))]

def perform : ObjectRequest → StepM Outcome
  | .create className parent => do
    let parent ← .takeObject? parent
    return .value (.object (← HeapM.newWithPrototype className parent))
  | .allocate className parent fields => do
    let parent ← .takeObject? parent
    let fields ← makeFields .empty fields
    let id ← HeapM.allocObject { Object.plain className parent with fields := fields }
    HeapM.handOver fields.values
    return .value (.object id)
  | .lookup on key => do
    let on ← .take on
    .valueOf ((← StepM.heap).lookupFieldOf on key)
  | .assign on v key => do
    let on ← .take on
    let v ← .take v
    HeapM.assignFieldOf on key v
    .factOf "on" on
  | .insertField on v key => do
    let id ← .takeObject on
    let v ← .take v
    HeapM.insertField id key v
    .factOf "on" (.object id)
  | .own on key => do
    let id ← .takeObject on
    let h ← .heap
    return .facts [
      ("field", h.snapshot? (h.ownPlainField? id key)),
      ("has", .boolean (h.ownPlainField? id key).isSome),
      ("getter", .boolean (h.ownGetter? id key).isSome),
      ("setter", .boolean (h.ownSetter? id key).isSome)]
  | .remove on key => do
    let id ← .takeObject on
    let old ← HeapM.removeField id key
    old.forM fun v => .keep v
    let h ← .heap
    return .facts [("old", h.snapshot? old), ("on", h.snapshot (.object id))]
  | .keys on => do
    let id ← .takeObject on
    .fact "keys" (.texts ((← StepM.heap).keys id))
  | .describe on => do
    let id ← .takeObject on
    let h ← .heap
    let o ← .required (h.object? id)
    return .facts (Facts.description h id o)
  | .setClass on className => do
    let id ← .takeObject on
    HeapM.setClassName id className
    let o ← .required ((← StepM.heap).object? id)
    .fact "class" (.text o.className)
  | .prototype on => do
    let id ← .takeObject on
    .valueOf (.ofOption ((← StepM.heap).prototype? id))
  | .setPrototype on parent => do
    let id ← .takeObject on
    let parent ← .takeObject? parent
    .orFail (← HeapM.setPrototype id parent)
    .fact "done" (.boolean true)
  | .same a b => do
    let a ← .takeObject a
    let b ← .takeObject b
    let isSame := Snapshot.boolean (a == b)
    return .facts [("ptr_eq", isSame), ("eq", isSame), ("hash_eq", isSame)]
  | .setPayload on spec => do
    let id ← .takeObject on
    let p ← makePayload spec
    HeapM.setPayload id p
    .fact "payload" (.boolean true)
  | .payload on => do
    let id ← .takeObject on
    let h ← .heap
    return .facts (Facts.payload h (h.payload? id))
  | .clearPayload on => do
    let id ← .takeObject on
    let had ← HeapM.clearPayload id
    return .facts [
      ("had", .boolean had),
      ("has", .boolean ((← StepM.heap).payload? id).isSome)]
  | .drops => do
    let releases := Comparison.sort (fun a b => a.text < b.text) (← StepM.heap).releases
    .fact "drops" (.array (releases.map Release.snapshot))
  | .arrayLength on => do
    let id ← .takeObject on
    .fact "len" (.ofNat? ((← StepM.heap).arrayLength? id))
  | .elements on => do
    let id ← .takeObject on
    let h ← .heap
    .fact "v" (.orNull (h.elementsOf? id) fun elements => .array (elements.toList.map h.snapshot))
  | .getIndex on index => do
    let id ← .takeObject on
    .valueOf ((← StepM.heap).elementAt id index)
  | .setIndex on v index => do
    let id ← .takeObject on
    let v ← .take v
    lengthFacts id (← HeapM.setElement id index v)
  | .setLength on length => do
    let id ← .takeObject on
    lengthFacts id (← HeapM.setLength id length)
  | .push on v => do
    let id ← .takeObject on
    let v ← .take v
    .fact "len" (.ofNat? (← HeapM.push id v))
  | .pop on => do
    let id ← .takeObject on
    let old ← HeapM.pop id
    old.forM fun v => .keep v
    let h ← .heap
    return .facts [
      ("old", h.snapshot? old),
      ("len", .ofNat? (h.arrayLength? id))]
  | .unitCount on => do
    let id ← .takeObject on
    .fact "len" (.ofNat? (((← StepM.heap).text? (.object id)).map Text.unitCount))
  | .charAt on index => do
    let id ← .takeObject on
    charFacts id index

end ObjectRequest

end ScriptCore
