import ScriptCore.Call
import ScriptCore.Conversion

/-!
# Requests

What a host can ask of a session, one step at a time. Values come as literals, which are made into
fresh objects when the step runs, except for registers and prototypes, which name objects there are.
-/

namespace ScriptCore

/-- The prototypes by what they are the prototypes of. -/
inductive Intrinsic where
  | object
  | array
  | string
  | function
deriving DecidableEq

/-- A value in writing. -/
inductive Literal where
  | undefined
  | null
  | boolean (b : Bool)
  | integer (n : Int64)
  | double (d : Double)
  | text (s : String)
  | array (items : List Literal)
  | object (entries : List (String × Literal))
  | register (name : String)
  | intrinsic (which : Intrinsic)
  /-- a value in so many arrays of one element -/
  | nestedArray (depth : Nat) (of : Literal)
  /-- a value in so many objects of one field -/
  | nestedObject (depth : Nat) (key : String) (of : Literal)
  /-- a text so many times over -/
  | repeated (s : String) (times : Nat)

/-- A host value that becomes a script value. -/
inductive HostValue where
  | boolean (b : Bool)
  | integer (n : Int64)
  | size (n : Nat)
  | double (d : Double)
  | text (s : String)
  /-- an object that is there, a string with this text -/
  | present (s : String)
  /-- an object that is not there -/
  | absent
  | undefined
  | null

/-- Requests about values alone. -/
inductive ValueRequest where
  | parseNumber (text : String)
  | formatDouble (d : Double)
  | binary (op : BinaryOp) (a b : Literal)
  | unary (op : UnaryOp) (a : Literal)
  | equality (a b : Literal)
  | order (a b : Literal)
  | keyEquality (a b : Literal)
  | sort (items : List Literal)
  | inspect (v : Literal)
  | display (v : Literal)
  | predicates (v : Literal)
  | convert (target : Target) (v : Literal)
  | check (target : Target) (v : Literal)
  | fromHost (x : HostValue)
  | compareTexts (a b : String)
  | fromJson (text : String)
  | toJson (v : Literal)

/-- Requests about registers and the table of the session. -/
inductive StoreRequest where
  | keep (v : Literal)
  | dropRegister (name : String)
  | tableInsert (key v : Literal)
  | tableGet (key : Literal)
  | tableRemove (key : Literal)

/-- What kind of payload to attach. -/
inductive PayloadSpec where
  | integer (v : Literal)
  | text (v : Literal)
  | value (v : Literal)
  | watch (name : String) (collects : Bool)

/-- Requests about objects, arrays and strings. -/
inductive ObjectRequest where
  | create (className : String) (prototype : Option Literal)
  | allocate (className : String) (prototype : Option Literal) (fields : List (String × Literal))
  | lookup (on : Literal) (key : String)
  | assign (on v : Literal) (key : String)
  | insertField (on v : Literal) (key : String)
  | own (on : Literal) (key : String)
  | remove (on : Literal) (key : String)
  | keys (on : Literal)
  | describe (on : Literal)
  | setClass (on : Literal) (className : String)
  | prototype (on : Literal)
  | setPrototype (on : Literal) (prototype : Option Literal)
  | same (a b : Literal)
  | setPayload (on : Literal) (spec : PayloadSpec)
  | payload (on : Literal)
  | clearPayload (on : Literal)
  | drops
  | arrayLength (on : Literal)
  | elements (on : Literal)
  | getIndex (on : Literal) (index : Nat)
  | setIndex (on v : Literal) (index : Nat)
  | setLength (on : Literal) (length : Nat)
  | push (on v : Literal)
  | pop (on : Literal)
  | unitCount (on : Literal)
  | charAt (on : Literal) (index : Nat)

/-- What a host closure does. -/
inductive ClosureKind where
  | const
  | counter
  | raise
  | record
deriving DecidableEq

/-- The body of a function to be made. Interpreted bodies of one label are one body. -/
inductive BodySpec where
  | native (code : NativeCode)
  | closure (kind : ClosureKind) (captured : Literal)
  | interpreted (code : String) (label : Option String) (scope : String)
  | compiled (code : String)

/-- Requests about functions and accessors. -/
inductive FunctionRequest where
  | create (name : String) (params : List String) (isConstructor : Bool) (body : BodySpec)
  | call (engine : Engine) (on this : Literal) (args : List Literal)
  | bindThis (on this : Literal)
  | info (on : Literal)
  | order (a b : Literal)
  | copyCompiled (on : Literal) (scope : String)
  | isInstance (a b : Literal)
  | toTemplate (on : Literal)
  | fromTemplate (text : String)
  | engineCalls
  | addGetter (on v : Literal) (key : String)
  | addSetter (on v : Literal) (key : String)
  | findGetter (on : Literal) (key : String)
  | findSetter (on : Literal) (key : String)
  | getProperty (engine : Engine) (on : Literal) (key : String)
  | callGetter (engine : Engine) (on : Literal) (key : String)
  | setProperty (engine : Engine) (on v : Literal) (key : String)
  | callSetter (engine : Engine) (on v : Literal) (key : String)

/-- Requests about scopes, which have names of their own. -/
inductive ScopeRequest where
  | create (name : String) (outer : Option String)
  | dropScope (name : String)
  | define (scope : String) (v : Literal) (name : String) (isMutable : Bool)
  | read (scope : String) (name : String)
  | assign (scope : String) (v : Literal) (name : String)
  | outer (scope : String)

/-- Where settings come from. -/
inductive SettingsSource where
  | default
  | json (text : String)
  | variables (values : List (String × String))

/-- Requests about the collector and the settings. -/
inductive CollectorRequest where
  | collect (borrowed : Option Literal)
  | stats
  | threshold (new : Option Nat)
  | configure (source : SettingsSource) (install : Bool)

inductive Request where
  | value (r : ValueRequest)
  | store (r : StoreRequest)
  | object (r : ObjectRequest)
  | function (r : FunctionRequest)
  | scope (r : ScopeRequest)
  | collector (r : CollectorRequest)

/-- A request, with the register for its value and the register for its error. -/
structure Step where
  request : Request
  keepIn : Option String
  catchIn : Option String

end ScriptCore
