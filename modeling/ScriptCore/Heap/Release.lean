import ScriptCore.Heap.Basic
import ScriptCore.Heap.Weight

/-!
# Letting go

When a reference is let go and it was the last one, its node dies, and the node's contents are let
go in their turn, each with everything that follows from it before the next. While they wait, what
they refer to is held. A payload that watches for its release reports it, and may ask for a
collection at that very moment, in the middle of the deaths around it.
-/

namespace ScriptCore

namespace Heap

/-- An upper bound on the steps of letting go everything there is: what is pending, and what each
live node would add by dying. -/
def releaseBound (h : Heap) (items : List Pending) : Nat :=
  Pending.totalWeight items + h.total fun cell => cell.node.releaseWeight

/-- Let go of one item: what has to be let go next, and the heap by then. `onDemand` is the
collection that a watching payload asks for. -/
def letGoOne (onDemand : Heap → Heap × Nat) (h : Heap) : Pending → List Pending × Heap
  | .reference id =>
    let h := h.removeHandle id
    if h.isReferenced id then ([], h)
    else
      match h.node? id with
      | some node => (node.contents, (h.free id).holdPending node.contents)
      | none => ([], h)
  | .payload (.integer _) => ([], h)
  | .payload (.text _) => ([], h)
  | .payload (.value v) => (Pending.ofValue v, h)
  | .payload (.watch name false) => ([], h.report ⟨name, none⟩)
  | .payload (.watch name true) =>
    let (h, collected) := onDemand h
    ([], h.report ⟨name, some collected⟩)

/-- Let go of pending items from first to last, each with all that follows from it. -/
def settle (onDemand : Heap → Heap × Nat) : Nat → List Pending → Heap → Heap
  | 0, _, h => h
  | _ + 1, [], h => h
  | fuel + 1, item :: rest, h =>
    let (next, h) := h.letGoOne onDemand item
    settle onDemand fuel (next ++ rest) h

/-- Let go of pending items while a collection is going on, when no other can start. -/
def settleQuietly (h : Heap) (items : List Pending) : Heap :=
  settle (fun h => (h, 0)) (h.releaseBound items) items h

end Heap

end ScriptCore
