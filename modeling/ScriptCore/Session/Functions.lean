import ScriptCore.Call
import ScriptCore.Comparison
import ScriptCore.Session.Objects
import ScriptCore.Template

/-!
# Steps about functions and scopes

Making functions, calling them, their templates, accessors, and the scopes that functions run in.
-/

namespace ScriptCore

namespace ScriptCode

def ofText (text : String) : ScriptCode :=
  match text.toList with
  | 'g' :: 'e' :: 't' :: ':' :: target => .get (String.ofList target)
  | 'i' :: 'n' :: 'c' :: ':' :: target => .increment (String.ofList target)
  | _ =>
    if text = "sum" then .sum
    else if text = "this" then .self
    else if text = "name" then .name
    else .foreign

end ScriptCode

namespace Facts

/-- What the kind of a function is called inside a description of it. -/
def callKindName : CallKind → String
  | .native => "NativeFunction"
  | .closure => "NativeClosure"
  | .interpreted => "InterpretedScript"
  | .compiled => "CompiledScript"

def quotedList (texts : List String) : String :=
  "[" ++ ", ".intercalate (texts.map Text.quote) ++ "]"

def boolText (b : Bool) : String := if b then "true" else "false"

def callableText (f : Callable) : String :=
  "Function \x7b name: " ++ Text.quote f.name ++ ", params: " ++ quotedList f.params ++
    ", kind: " ++ callKindName f.kind ++ ", is_constructor: " ++ boolText f.isConstructor ++ " \x7d"

/-- A scope described: the names of its variables, sorted, and whether it lies in another. -/
def scopeText (s : Scope) : String :=
  let names := s.bindings.keys.mergeSort fun a b => decide (a ≤ b)
  "Environment \x7b bindings: " ++ quotedList names ++ ", has_outer: " ++ boolText s.outer.isSome ++
    " \x7d"

/-- What there is to say about a function, nothing about another object. -/
def callable (f : Option Callable) : List (String × Snapshot) :=
  [("name", .orNull f fun f => .text f.name),
    ("kind", .orNull f fun f => .text f.kind.text),
    ("params", .orNull f fun f => .texts f.params),
    ("ctor", .orNull f fun f => .boolean f.isConstructor),
    ("bytecode", .orNull (f.bind Callable.bytecode?) fun bytes =>
      .array (bytes.map fun b => .ofNat b.toNat)),
    ("template", .orNull f fun f => .boolean f.isTemplate),
    ("debug", .orNull f fun f => .text (callableText f))]

def template (t : Template) : Snapshot :=
  .object [
    ("bytecode", .array (t.bytecode.map fun b => .ofNat b.toNat)),
    ("is_constructor", .boolean t.isConstructor),
    ("name", .text t.name),
    ("parameter_names", .texts t.parameterNames)]

end Facts

namespace FunctionRequest

def freshIdentity : StepM Nat := do
  let s ← getThe Session
  set { s with fresh := s.fresh + 1 }
  return s.fresh

/-- The script body of a label, made on its first use, or one without a label. -/
def script (code : String) (label : Option String) : StepM Script := do
  match label.bind (← getThe Session).scripts.get? with
  | some script => return script
  | none =>
    let script : Script := ⟨← freshIdentity, .ofText code⟩
    label.forM fun name => modifyThe Session fun s =>
      { s with scripts := s.scripts.insert name script }
    return script

def closure (h : Heap) (kind : ClosureKind) (captured : Value) : Closure :=
  match kind with
  | .const => .const captured
  | .counter => .counter (h.toInteger captured)
  | .raise => .raise captured
  | .record => .record captured

def makeBody : BodySpec → StepM Body
  | .native code => return .native code
  | .closure kind captured => do
    let captured ← .take captured
    let identity ← freshIdentity
    return .closure identity (closure (← .heap) kind captured)
  | .interpreted code label scope => do
    let scope ← .scope scope
    return .interpreted (← script code label) scope
  | .compiled code => return .compiled (Text.toBytes code) none

def called (outcome : Except Error Value) : StepM Outcome := do
  return .value (← .orFail outcome)

def perform : FunctionRequest → StepM Outcome
  | .create name params isConstructor spec => do
    let body ← makeBody spec
    return .value (.object (← HeapM.newFunction ⟨name, params, isConstructor, none, body⟩))
  | .call engine on this args => do
    let on ← .take on
    let this ← .take this
    let args ← .takeAll args
    called (← RunM.call engine on this args)
  | .bindThis on this => do
    let id ← .takeObject on
    let this ← .take this
    .orFail (← HeapM.bindThis id this)
    let h ← .heap
    .fact "bound" (h.snapshot? ((h.callableOf? id).bind Callable.boundThis))
  | .info on => do
    let id ← .takeObject on
    return .facts (Facts.callable ((← StepM.heap).callableOf? id))
  | .order a b => do
    let a ← .takeObject a
    let b ← .takeObject b
    let h ← .heap
    match h.callableOf? a, h.callableOf? b with
    | some f, some g =>
      let order := f.compare h.places g
      return .facts [
        ("cmp", .text (Facts.orderName order)),
        ("eq", .boolean (order == .eq)),
        ("lt", .boolean (order == .lt))]
    | _, _ => .fail .notAFunction
  | .copyCompiled on scope => do
    let id ← .takeObject on
    let scope ← .scope scope
    return .value (.object (← .orFail (← HeapM.copyCompiled id scope)))
  | .isInstance a b => do
    let a ← .take a
    let b ← .take b
    let h ← .heap
    let byReference := match a, b with
      | .object x, .object y => Snapshot.boolean (h.isInstanceOf x y)
      | _, _ => .null
    return .facts [("value", .boolean (h.isInstance a b)), ("ref", byReference)]
  | .toTemplate on => do
    let id ← .takeObject on
    .fact "template" (.orNull ((← StepM.heap).template? id) Facts.template)
  | .fromTemplate text =>
    match Template.ofText text with
    | some t => return .value (.object (← HeapM.newFromTemplate t))
    | none => .fail .badTemplate
  | .engineCalls => do .fact "calls" (.ofNat (← getThe Session).runtime.engineCalls)
  | .addGetter on v key => do
    let id ← .takeObject on
    let getter ← .takeObject v
    HeapM.addGetter id key getter
    return .facts (Facts.accessors (← StepM.heap) id key)
  | .addSetter on v key => do
    let id ← .takeObject on
    let setter ← .takeObject v
    HeapM.addSetter id key setter
    return .facts (Facts.accessors (← StepM.heap) id key)
  | .findGetter on key => do
    let id ← .takeObject on
    .valueOf (.ofOption ((← StepM.heap).findGetter? id key))
  | .findSetter on key => do
    let id ← .takeObject on
    .valueOf (.ofOption ((← StepM.heap).findSetter? id key))
  | .getProperty engine on key => do
    let id ← .takeObject on
    called (← RunM.getProperty engine id key)
  | .callGetter engine on key => do
    let id ← .takeObject on
    called (← RunM.callGetter engine id key)
  | .setProperty engine on v key => do
    let id ← .takeObject on
    let v ← .take v
    .orFail (← RunM.setProperty engine id key v)
    .factOf "on" (.object id)
  | .callSetter engine on v key => do
    let id ← .takeObject on
    let v ← .take v
    .orFail (← RunM.callSetter engine id key v)
    .factOf "on" (.object id)

end FunctionRequest

namespace ScopeRequest

def described (id : NodeId) : StepM Outcome := do
  let s ← .required ((← StepM.heap).scope? id)
  .fact "debug" (.text (Facts.scopeText s))

def perform : ScopeRequest → StepM Outcome
  | .create name around => do
    let around ← match around with
      | some around => some <$> StepM.scope around
      | none => pure none
    let id ← HeapM.newScope around
    let s ← getThe Session
    set { s with scopes := s.scopes.insert name id }
    (s.scopes.get? name).forM fun old => HeapM.letGo (.object old)
    described id
  | .dropScope name => do
    let s ← getThe Session
    match s.scopes.get? name with
    | none => .fact "dropped" (.boolean false)
    | some id =>
      set { s with scopes := s.scopes.erase name }
      HeapM.letGo (.object id)
      .fact "dropped" (.boolean true)
  | .define scope v name isMutable => do
    let id ← .scope scope
    let v ← .take v
    HeapM.define id name v isMutable
    described id
  | .read scope name => do
    let id ← .scope scope
    let h ← .heap
    return .facts [
      ("v", h.snapshot? (h.readVariable id name)),
      ("has", .boolean (h.readVariable id name).isSome),
      ("own", .boolean (h.ownBinding? id name).isSome)]
  | .assign scope v name => do
    let id ← .scope scope
    let v ← .take v
    .orFail (← HeapM.assignVariable id name v)
    let h ← .heap
    .fact "v" (h.snapshot? (h.readVariable id name))
  | .outer scope => do
    let id ← .scope scope
    let s ← getThe Session
    let named (id : NodeId) : List String :=
      (s.scopes.entries.filter fun entry => entry.2 = id).map Prod.fst
    .fact "outer" (.orNull (s.heap.outerScope? id) fun around =>
      .texts ((named around).mergeSort fun a b => decide (a ≤ b)))

end ScopeRequest

end ScriptCore
