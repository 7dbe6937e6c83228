import ScriptCore.Heap.Node

/-!
# The heap

A heap is an array of cells, one for every node ever allocated; the cell of a node that has died is
empty. A live cell holds its node and the number of **handles** on it: references held from outside,
by the host, by the prototypes every heap has, or by an operation under way. The **strong count** of
a node is its handles together with the references to it stored in live nodes. It is worked out and
not kept, so it cannot be wrong.

A node lives as long as its strong count is positive. Letting a reference go is in `Heap.Release`,
and garbage that holds itself alive is the business of `Heap.Collect`.
-/

namespace ScriptCore

structure Cell where
  handles : Nat
  node : Node

/-- What the collector tells about its work. -/
structure CollectorStats where
  collections : Nat
  live : Nat
  lastCollected : Nat
  totalCollected : Nat
deriving DecidableEq

/-- The books of the collector. -/
structure Collector where
  /-- The nodes it knows, in order of registration. Dead ones are struck off now and then. -/
  registry : Array NodeId
  /-- Registrations since the last collection. -/
  sinceLast : Nat
  /-- How many of them start a collection; with zero, none starts by itself. -/
  threshold : Nat
  /-- The registry is kept shorter than this. -/
  pruneAt : Nat
  collecting : Bool
  stats : CollectorStats

/-- The prototypes that new objects are linked to. -/
structure Realm where
  objectPrototype : NodeId
  arrayPrototype : NodeId
  stringPrototype : NodeId
  functionPrototype : NodeId
deriving DecidableEq

/-- The report of a payload that has been let go: its name and, if it ran a collection, how many
nodes that collected. -/
structure Release where
  name : String
  collected : Option Nat
deriving DecidableEq

structure Heap where
  cells : Array (Option Cell)
  /-- Nodes that an operation under way is changing. -/
  borrowed : List NodeId
  collector : Collector
  realm : Option Realm
  releases : List Release
  /-- How deep objects and arrays are written out inside one another. -/
  displayDepth : Nat
  /-- Where things stand in memory. Nothing but the order of callables depends on it. -/
  places : Places Nat

abbrev HeapM := StateM Heap

namespace Collector

def defaultThreshold : Nat := 10000

def minPruneLength : Nat := 1024

def initial : Collector := ⟨#[], 0, defaultThreshold, minPruneLength, false, ⟨0, 0, 0, 0⟩⟩

end Collector

namespace Heap

def defaultDisplayDepth : Nat := 8

def initial : Heap := ⟨#[], [], .initial, none, [], defaultDisplayDepth, .numbers⟩

def placedAt (h : Heap) (p : Places Nat) : Heap := { h with places := p }

/-! ## Reading -/

def cell? (h : Heap) (id : NodeId) : Option Cell := h.cells[id]?.join

def node? (h : Heap) (id : NodeId) : Option Node := (h.cell? id).map Cell.node

def object? (h : Heap) (id : NodeId) : Option Object :=
  match h.node? id with
  | some (.object o) => some o
  | _ => none

def scope? (h : Heap) (id : NodeId) : Option Scope :=
  match h.node? id with
  | some (.scope s) => some s
  | _ => none

def isLive (h : Heap) (id : NodeId) : Bool := (h.cell? id).isSome

def liveCells (h : Heap) : List Cell := h.cells.toList.filterMap id

def total (h : Heap) (f : Cell → Nat) : Nat := (h.liveCells.map f).foldr (· + ·) 0

/-! ## Counting references -/

def storedCount (h : Heap) (id : NodeId) : Nat :=
  h.total fun cell => cell.node.references.count id

def handles (h : Heap) (id : NodeId) : Nat := ((h.cell? id).map Cell.handles).getD 0

def strongCount (h : Heap) (id : NodeId) : Nat := h.handles id + h.storedCount id

def isReferenced (h : Heap) (id : NodeId) : Bool :=
  0 < h.handles id ||
    h.cells.any fun slot => slot.any fun cell => cell.node.refersTo id

/-! ## Changing cells -/

def setCell (h : Heap) (id : NodeId) (cell : Option Cell) : Heap :=
  { h with cells := h.cells.setIfInBounds id cell }

/-- Replace a live node, leaving the handles on it as they are. -/
def setNode (h : Heap) (id : NodeId) (node : Node) : Heap :=
  match h.cell? id with
  | some cell => h.setCell id (some { cell with node := node })
  | none => h

def setObject (h : Heap) (id : NodeId) (o : Object) : Heap := h.setNode id (.object o)

def addHandle (h : Heap) (id : NodeId) : Heap :=
  match h.cell? id with
  | some cell => h.setCell id (some { cell with handles := cell.handles + 1 })
  | none => h

/-- Give one handle back, without asking whether it was the last reference. -/
def removeHandle (h : Heap) (id : NodeId) : Heap :=
  match h.cell? id with
  | some cell => h.setCell id (some { cell with handles := cell.handles - 1 })
  | none => h

def addHandles (h : Heap) (ids : List NodeId) : Heap := ids.foldl addHandle h

def removeHandles (h : Heap) (ids : List NodeId) : Heap := ids.foldl removeHandle h

/-- Take handles on everything pending, so that nothing in it dies before its turn. -/
def holdPending (h : Heap) (items : List Pending) : Heap :=
  h.addHandles (items.flatMap Pending.references)

def free (h : Heap) (id : NodeId) : Heap := h.setCell id none

def report (h : Heap) (release : Release) : Heap := { h with releases := h.releases ++ [release] }

/-! ## Chains -/

/-- The objects met by following prototypes from `start`, itself first. No chain is longer than the
heap has cells, so the walk is given that many steps. -/
def chainFrom (h : Heap) : Nat → Option NodeId → List NodeId
  | _, none => []
  | 0, _ => []
  | fuel + 1, some id =>
    match h.object? id with
    | some o => id :: h.chainFrom fuel o.prototype
    | none => []

def chain (h : Heap) (id : NodeId) : List NodeId := h.chainFrom h.cells.size (some id)

def scopesFrom (h : Heap) : Nat → Option NodeId → List NodeId
  | _, none => []
  | 0, _ => []
  | fuel + 1, some id =>
    match h.scope? id with
    | some s => id :: h.scopesFrom fuel s.outer
    | none => []

def scopes (h : Heap) (id : NodeId) : List NodeId := h.scopesFrom h.cells.size (some id)

/-! ## Asking a value what it is -/

def objectOf? (h : Heap) (v : Value) : Option Object := v.id?.bind h.object?

def text? (h : Heap) (v : Value) : Option String := (h.objectOf? v).bind Object.text?

def elements? (h : Heap) (v : Value) : Option (Array Value) := (h.objectOf? v).bind Object.elements?

def callable? (h : Heap) (v : Value) : Option Callable := (h.objectOf? v).bind Object.callable?

def kind? (h : Heap) (v : Value) : Option ObjectKind := (h.objectOf? v).map Object.kind

def isString (h : Heap) (v : Value) : Bool := h.kind? v == some .string

def isArray (h : Heap) (v : Value) : Bool := h.kind? v == some .array

def isFunction (h : Heap) (v : Value) : Bool := h.kind? v == some .function

end Heap

end ScriptCore
