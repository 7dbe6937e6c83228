import ScriptCore.Heap.Release

/-!
# Collecting garbage

Nodes that hold each other alive are found by trial deletion. From the strong count of every node
the references are taken away that are stored in nodes and can be traced; a node that still has some
left is referenced from elsewhere: by the host, by a payload, by a closure. Those nodes are roots,
and so is every node that is being changed at the moment, which is not traced at all. What can be
reached from a root is kept. The rest is emptied, and what it held is let go.
-/

namespace ScriptCore

namespace Heap

/-! ## Trial deletion -/

/-- The references of a node that a collection follows: none while the node is being changed. -/
def edges (h : Heap) (id : NodeId) : List NodeId :=
  if h.borrowed.contains id then []
  else
    match h.node? id with
    | some node => node.tracedReferences
    | none => []

def strongCounts (h : Heap) : Array Nat :=
  let handles := h.cells.map fun slot => (slot.map Cell.handles).getD 0
  let references := h.liveCells.flatMap fun cell => cell.node.references
  references.foldl (fun counts id => counts.modify id (· + 1)) handles

/-- What is left of the counts when the references that a collection follows are taken away. -/
def externalCounts (h : Heap) (nodes : List NodeId) : Array Nat :=
  (nodes.flatMap h.edges).foldl (fun counts id => counts.modify id (· - 1)) h.strongCounts

def roots (h : Heap) (nodes : List NodeId) : List NodeId :=
  let counts := h.externalCounts nodes
  nodes.filter fun id => 0 < counts[id]?.getD 0 || h.borrowed.contains id

/-- Mark everything reachable from the nodes waiting. A node is expanded once, so there are no more
steps than nodes to start from and edges to follow. -/
def markFrom (h : Heap) : Nat → List NodeId → Array Bool → Array Bool
  | 0, _, marked => marked
  | _ + 1, [], marked => marked
  | fuel + 1, id :: waiting, marked =>
    if marked[id]?.getD true then h.markFrom fuel waiting marked
    else h.markFrom fuel (h.edges id ++ waiting) (marked.setIfInBounds id true)

/-- The marks on all nodes, by node: which of them a collection keeps. -/
def marks (h : Heap) (nodes : List NodeId) : Array Bool :=
  let roots := h.roots nodes
  h.markFrom (roots.length + (nodes.flatMap h.edges).length) roots
    (Array.replicate h.cells.size false)

/-! ## Sweeping -/

/-- The nodes that the collector knows and that are alive, in order of registration. -/
def registered (h : Heap) : List NodeId := h.collector.registry.toList.filter h.isLive

/-- Whether a collection leaves a node alone: it is marked, or it is being changed. -/
def isKept (h : Heap) (marked : Array Bool) (id : NodeId) : Bool :=
  marked[id]?.getD false || h.borrowed.contains id

/-- What a node would let go of, nothing if there is no such node. -/
def contentsOf (h : Heap) (id : NodeId) : List Pending :=
  match h.node? id with
  | some node => node.contents
  | none => []

/-- Empty a node, without letting go of what was in it. -/
def emptyNode (h : Heap) (id : NodeId) : Heap :=
  match h.node? id with
  | some node => h.setNode id node.emptied
  | none => h

/-- The nodes that the collector knows in two parts, each in order of registration: those that a
collection keeps, and the garbage. -/
def sift (h : Heap) : List NodeId × List NodeId :=
  let nodes := h.registered
  let marked := h.marks nodes
  nodes.partition (h.isKept marked)

/-- Empty the garbage, hold what was in it, and write up the books. -/
def sweep (h : Heap) (kept garbage : List NodeId) : Heap :=
  let emptied := garbage.foldl emptyNode (h.holdPending (garbage.flatMap h.contentsOf))
  let books := h.collector
  let stats : CollectorStats :=
    ⟨books.stats.collections + 1, kept.length, garbage.length,
      books.stats.totalCollected + garbage.length⟩
  { emptied with
    collector := { books with
      registry := kept.toArray, sinceLast := 0, collecting := true, stats := stats } }

def endCollection (h : Heap) : Heap := { h with collector := { h.collector with collecting := false } }

/-- Collect garbage: the heap afterwards, and how many nodes were emptied. Within a collection this
does nothing. The books are written up before the contents of the garbage are let go. -/
def collect (h : Heap) : Heap × Nat :=
  if h.collector.collecting then (h, 0)
  else
    let (kept, garbage) := h.sift
    let contents := garbage.flatMap h.contentsOf
    (((h.sweep kept garbage).settleQuietly contents).endCollection, garbage.length)

/-! ## Registering -/

/-- Enter a node in the books, and strike off the dead when the registry has grown long. -/
def enter (h : Heap) (id : NodeId) : Heap :=
  let books := h.collector
  let registry := books.registry.push id
  if registry.size < books.pruneAt then
    { h with collector := { books with registry := registry, sinceLast := books.sinceLast + 1 } }
  else
    let registry := registry.filter h.isLive
    { h with
      collector := { books with
        registry := registry
        sinceLast := books.sinceLast + 1
        pruneAt := max (registry.size * 2) Collector.minPruneLength } }

def isDue (h : Heap) : Bool :=
  0 < h.collector.threshold && h.collector.threshold ≤ h.collector.sinceLast &&
    !h.collector.collecting

def register (h : Heap) (id : NodeId) : Heap :=
  let h := h.enter id
  if h.isDue then h.collect.1 else h

/-- One more cell, with a node and one handle on it. -/
def push (h : Heap) (node : Node) : Heap := { h with cells := h.cells.push (some ⟨1, node⟩) }

/-- Put a node on the heap. It comes with one handle, which belongs to the caller, and with its own
references to what it stores. -/
def alloc (h : Heap) (node : Node) : NodeId × Heap :=
  let id := h.cells.size
  (id, (h.push node).register id)

/-! ## Letting go, collections included -/

def letGo (h : Heap) (items : List Pending) : Heap :=
  match items with
  | [] => h
  | items => settle collect (h.releaseBound items) items h

/-- Give a node new contents and let go of what is lost by that, while the node counts as being
changed. -/
def replaceNode (h : Heap) (id : NodeId) (node : Node) (lost : List Pending) : Heap :=
  let h := (h.holdPending lost).setNode id node
  let settled := { h with borrowed := id :: h.borrowed }.letGo lost
  { settled with borrowed := settled.borrowed.erase id }

end Heap

/-! ## Holding and letting go of values -/

namespace HeapM

def look {α : Type} (f : Heap → α) : HeapM α := do return f (← get)

def hold (v : Value) : HeapM Unit := modify fun h => h.addHandles v.references

def letGo (v : Value) : HeapM Unit := modify fun h => h.letGo (Pending.ofValue v)

/-- Give back handles on objects that are stored by now, so that none can be the last reference. -/
def handOver (vs : List Value) : HeapM Unit :=
  modify fun h => h.removeHandles (vs.flatMap Value.references)

/-- A new object, held by the caller. -/
def allocObject (o : Object) : HeapM NodeId := modifyGet fun h => h.alloc (.object o)

def allocScope (s : Scope) : HeapM NodeId := modifyGet fun h => h.alloc (.scope s)

end HeapM

end ScriptCore
