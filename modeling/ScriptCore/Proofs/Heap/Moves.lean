import ScriptCore.Object.Attachment
import ScriptCore.Proofs.Comparison.Callables
import ScriptCore.Proofs.Heap.Reachable
import ScriptCore.Proofs.Object.Chains

/-!
# Moves

The steps from one heap to the next of which every operation is made up, each taken as a whole: no
node is left half changed, and nothing is pending in between. A `Move` leaves alone the payload of
every node, the text of every string, the identity of every function and the `this` that is bound to
it, the scope around every scope and every constant in a scope. `Attach` and `Detach` are the two operations that change
payloads, `Define` is the one that can change a constant, and `Bind` the one that binds a `this`.

`Changes becomes h k` tells of each node what it has become: it has died, or is what it may become, or
is new. What each step does is said once in this way (`Move.changes`, `Define.changes`,
`Attach.changes`, `Detach.changes`, `Bind.changes`), and what stays is read off there.

`Persists except h k`: what is alive on `k` was there on `h`, with the same text and, except for some
nodes, with the same payload, or it is new. Moves persist (`Move.persists`), and so do attaching and
detaching, except for the object that they are about.
-/

namespace ScriptCore

def Pending.payloads : Pending → List Payload
  | .reference _ => []
  | .payload p => [p]

namespace Node

def payload? : Node → Option Payload
  | .object o => o.payload
  | .scope _ => none

def text? : Node → Option String
  | .object o => o.text?
  | .scope _ => none

def boundThis? : Node → Option Value
  | .object o => o.callable?.bind Callable.boundThis
  | .scope _ => none

def identity? : Node → Option CallableIdentity
  | .object o => o.callable?.map Callable.identity
  | .scope _ => none

def outer? : Node → Option NodeId
  | .object _ => none
  | .scope s => s.outer

def binding? : Node → String → Option Binding
  | .object _, _ => none
  | .scope s, name => s.bindings.get? name

/-- What a write to a node leaves alone unless it attaches, detaches, defines or binds something. -/
structure Steady (old node : Node) : Prop where
  payload : node.payload? = old.payload?
  text : node.text? = old.text?
  bound : node.boundThis? = old.boundThis?
  identity : node.identity? = old.identity?
  outer : node.outer? = old.outer?
  constants : ∀ {name : String} {b : Binding}, old.binding? name = some b → b.isMutable = false →
    node.binding? name = some b

theorem Steady.refl (node : Node) : node.Steady node :=
  ⟨rfl, rfl, rfl, rfl, rfl, fun hb _ => hb⟩

theorem Steady.object {o o' : Object} (hp : o'.payload = o.payload) (ht : o'.text? = o.text?)
    (hb : (Node.object o').boundThis? = (Node.object o).boundThis?)
    (hi : (Node.object o').identity? = (Node.object o).identity?) :
    (Node.object o).Steady (.object o') := ⟨hp, ht, hb, hi, rfl, fun hb _ => hb⟩

theorem Steady.of_exotic {o o' : Object} (hp : o'.payload = o.payload)
    (he : o'.exotic = o.exotic) : (Node.object o).Steady (.object o') := by
  refine .object hp ?_ ?_ ?_
  · rw [Object.text?, Object.text?, he]
  · rw [boundThis?, boundThis?, Object.callable?, Object.callable?, he]
  · rw [identity?, identity?, Object.callable?, Object.callable?, he]

end Node

namespace Pending

theorem payloads_map_reference (ids : List NodeId) :
    (ids.map Pending.reference).flatMap payloads = [] := by
  simp [List.flatMap_map, payloads]

theorem payloads_ofValue (v : Value) : (ofValue v).flatMap payloads = [] :=
  payloads_map_reference v.references

theorem payloads_flatMap_ofValue (vs : List Value) :
    (vs.flatMap ofValue).flatMap payloads = [] := by
  simp [List.flatMap_assoc, payloads_ofValue]

end Pending

namespace Heap

variable {h k l : Heap} {id : NodeId} {held : List NodeId} {lost : List Pending} {old node : Node}
  {p : Payload} {o : Object} {except more : NodeId → Prop}

/-- The heap in the middle of `replaceNode`: the node is written, what is lost by that is pending,
and the node counts as being changed. -/
def opened (h : Heap) (id : NodeId) (node : Node) (lost : List Pending) : Heap :=
  let h := (h.holdPending lost).setNode id node
  { h with borrowed := id :: h.borrowed }

/-- The heap in the middle of `clearPayload`: the payload is taken off and pending. -/
def detached (h : Heap) (id : NodeId) (o : Object) (p : Payload) : Heap :=
  (h.holdPending [.payload p]).setObject id { o with payload := none }

/-- One step to the next heap that leaves payloads and texts alone. -/
inductive Move : Heap → Heap → Prop
  | hold (h : Heap) (ids : List NodeId) : Move h (h.addHandles ids)
  | handOver (h : Heap) (ids : List NodeId) : Move h (h.removeHandles ids)
  /-- References are let go. -/
  | letGo {h : Heap} {items : List Pending} {held : List NodeId}
      (hr : h.Reachable (items.flatMap Pending.references ++ held))
      (hbare : items.flatMap Pending.payloads = []) : Move h (h.letGo items)
  | collect {h : Heap} {held : List NodeId} (hr : h.Reachable held) : Move h h.collect.1
  /-- A collection while other nodes count as being changed. -/
  | collectWhile {h : Heap} {held : List NodeId} (hr : h.Reachable held) (ids : List NodeId) :
      Move h { ({ h with borrowed := ids }.collect).1 with borrowed := h.borrowed }
  /-- A node without a payload is put on the heap, with a collection if that is due. -/
  | alloc {h : Heap} {node : Node} {held : List NodeId} (hr : h.Reachable held)
      (hl : ∀ l ∈ node.links, h.Has l) (hp : node.payload? = none) : Move h (h.alloc node).2
  | write {h : Heap} {id : NodeId} {old node : Node} (hn : h.node? id = some old)
      (hs : old.Steady node) : Move h (h.setNode id node)
  /-- A node is written, and the references lost by that are let go. -/
  | replace {h : Heap} {id : NodeId} {old node : Node} {lost : List Pending} {held : List NodeId}
      (hr : (h.opened id node lost).Reachable (lost.flatMap Pending.references ++ held))
      (hn : h.node? id = some old) (hs : old.Steady node)
      (hbare : lost.flatMap Pending.payloads = []) : Move h (h.replaceNode id node lost)
  | install (h : Heap) (r : Realm) : Move h { h with realm := some r }
  | configure (h : Heap) (settings : Settings) : Move h (h.configure settings)

/-- An object gets a payload, and the one before it is let go while the object counts as being
changed. -/
inductive Attach (id : NodeId) (p : Payload) : Heap → Heap → Prop
  | intro {h : Heap} {o : Object} {held : List NodeId} (ho : h.object? id = some o)
      (hr : (h.opened id (.object { o with payload := some p })
        (o.payload.toList.map .payload)).Reachable
          ((o.payload.toList.map Pending.payload).flatMap Pending.references ++ held)) :
      Attach id p h
        (h.replaceNode id (.object { o with payload := some p }) (o.payload.toList.map .payload))

/-- The payload of an object is taken off and let go. -/
inductive Detach (id : NodeId) : Heap → Heap → Prop
  | intro {h : Heap} {o : Object} {p : Payload} {held : List NodeId} (ho : h.object? id = some o)
      (hp : o.payload = some p) (hr : (h.detached id o p).Reachable
        ([Pending.payload p].flatMap Pending.references ++ held)) :
      Detach id h ((h.detached id o p).letGo [.payload p])

/-- A variable is defined in a scope, and what is lost by that is let go while the scope counts as
being changed. -/
inductive Define (id : NodeId) (name : String) : Heap → Heap → Prop
  | intro {h : Heap} {s : Scope} {b : Binding} {lost : List Pending} {held : List NodeId}
      (hn : h.node? id = some (.scope s))
      (hr : (h.opened id (.scope { s with bindings := s.bindings.insert name b }) lost).Reachable
        (lost.flatMap Pending.references ++ held))
      (hbare : lost.flatMap Pending.payloads = []) :
      Define id name h
        (h.replaceNode id (.scope { s with bindings := s.bindings.insert name b }) lost)

/-- A function that is not bound is bound to a value. -/
inductive Bind (id : NodeId) (v : Value) : Heap → Heap → Prop
  | intro {h : Heap} {o : Object} {f : Callable} (ho : h.object? id = some o)
      (hf : o.exotic = .function f) (hb : f.boundThis = none) :
      Bind id v h (h.setObject id { o with exotic := .function { f with boundThis := some v } })

/-! ## What becomes of each node -/

/-- From one heap to the next, nodes have died or become what they may become, or they are new: then
they have no payload and refer to what was there. The same nodes are being changed, and everything
stands where it stood. -/
structure Changes (becomes : NodeId → Node → Node → Prop) (h k : Heap) : Prop where
  size_le : h.cells.size ≤ k.cells.size
  borrowed : k.borrowed = h.borrowed
  places : k.places = h.places
  nodes : ∀ {id node}, k.node? id = some node →
    (∃ old, h.node? id = some old ∧ becomes id old node) ∨
      h.cells.size ≤ id ∧ node.payload? = none ∧ ∀ l ∈ node.links, h.Has l

theorem node?_removeHandles (ids : List NodeId) (id : NodeId) :
    ∀ h : Heap, (h.removeHandles ids).node? id = h.node? id := by
  induction ids with
  | nil => exact fun _ => rfl
  | cons first ids ih =>
    exact fun h => (ih (h.removeHandle first)).trans (node?_removeHandle h first id)

theorem sameFrame_removeHandles (ids : List NodeId) :
    ∀ h : Heap, SameFrame h (h.removeHandles ids) := by
  induction ids with
  | nil => exact SameFrame.refl
  | cons first ids ih => exact fun h => (sameFrame_removeHandle h first).trans (ih _)

theorem shrinks_removeHandles (h : Heap) (ids : List NodeId) : Shrinks h (h.removeHandles ids) :=
  ⟨sameFrame_removeHandles ids h, fun hn => (node?_removeHandles ids _ h).symm.trans hn⟩

theorem Shrinks.has {link : Link} (hs : Shrinks h k) (hl : k.Has link) : h.Has link := by
  obtain ⟨node, hn⟩ := hl.node
  exact hl.congr ((hs.nodes hn).trans hn.symm)

namespace Changes

variable {becomes : NodeId → Node → Node → Prop}

theorem exists_old (hc : Changes becomes h k) (hlt : id < h.cells.size)
    (hn : k.node? id = some node) : ∃ old, h.node? id = some old ∧ becomes id old node :=
  (hc.nodes hn).resolve_right fun hnew => absurd hlt (Nat.not_lt.mpr hnew.1)

/-- **What is true of a node stays true of it** as long as it is there, if it stays true of whatever
the node may become. -/
theorem carries {P : Node → Prop} (hc : Changes becomes h k) (hlt : id < h.cells.size)
    (hP : ∀ {node}, h.node? id = some node → P node)
    (hb : ∀ old node, becomes id old node → P old → P node) (hn : k.node? id = some node) :
    P node := by
  obtain ⟨old, hold, hbecomes⟩ := hc.exists_old hlt hn
  exact hb old node hbecomes (hP hold)

theorem before (hs : Shrinks h k) (hc : Changes becomes k l) : Changes becomes h l := by
  refine ⟨hs.size ▸ hc.size_le, hc.borrowed.trans hs.borrowed, hc.places.trans hs.places,
    fun {id node} hn => ?_⟩
  rcases hc.nodes hn with ⟨old, hold, hb⟩ | ⟨hle, hp, hl⟩
  · exact Or.inl ⟨old, hs.nodes hold, hb⟩
  · exact Or.inr ⟨hs.size ▸ hle, hp, fun link hm => hs.has (hl link hm)⟩

theorem after (hc : Changes becomes h k) (hs : Shrinks k l) : Changes becomes h l :=
  ⟨hc.size_le.trans hs.size.ge, hs.borrowed.trans hc.borrowed, hs.places.trans hc.places,
    fun hn => hc.nodes (hs.nodes hn)⟩

variable (hrefl : ∀ id node, becomes id node node)

include hrefl

theorem of_nodes (hsize : k.cells.size = h.cells.size) (hborrowed : k.borrowed = h.borrowed)
    (hplaces : k.places = h.places)
    (hn : ∀ {id node}, k.node? id = some node → h.node? id = some node) : Changes becomes h k :=
  ⟨hsize.ge, hborrowed, hplaces, fun hk => Or.inl ⟨_, hn hk, hrefl _ _⟩⟩

theorem of_shrinks (hs : Shrinks h k) : Changes becomes h k :=
  of_nodes hrefl hs.size hs.borrowed hs.places hs.nodes

theorem setNode (hn : h.node? id = some old) (hb : becomes id old node) :
    Changes becomes h (h.setNode id node) := by
  have hframe := sameFrame_setNode h id node
  refine ⟨hframe.size.ge, hframe.borrowed, hframe.places, fun {x other} hx => Or.inl ?_⟩
  rw [node?_setNode] at hx
  split at hx
  · next hc =>
    obtain rfl := Option.some.inj hx
    exact ⟨old, hc.1 ▸ hn, hc.1 ▸ hb⟩
  · exact ⟨other, hx, hrefl x other⟩

theorem setNode_holdPending (lost : List Pending) (hn : h.node? id = some old)
    (hb : becomes id old node) : Changes becomes h ((h.holdPending lost).setNode id node) :=
  before (shrinks_addHandles h _) (setNode hrefl ((node?_addHandles _ id h).trans hn) hb)

theorem replaceNode
    (hr : (h.opened id node lost).Reachable (lost.flatMap Pending.references ++ held))
    (hn : h.node? id = some old) (hb : becomes id old node) :
    Changes becomes h (h.replaceNode id node lost) := by
  have hs := hr.letGo.2
  have hopen := setNode_holdPending hrefl lost hn hb
  refine ⟨hopen.size_le.trans hs.size.ge, ?_, hs.places.trans hopen.places,
    fun hx => hopen.nodes (hs.nodes hx)⟩
  show ((h.opened id node lost).letGo lost).borrowed.erase id = h.borrowed
  rw [hs.borrowed, opened, hopen.borrowed, List.erase_cons_head]

theorem alloc (hr : h.Reachable held) (hl : ∀ l ∈ node.links, h.Has l)
    (hp : node.payload? = none) : Changes becomes h (h.alloc node).2 := by
  have hframe := sameFrame_enter (h.push node) h.cells.size
  have hpush : Changes becomes h ((h.push node).enter h.cells.size) := by
    refine ⟨?_, hframe.borrowed, hframe.places, fun {id other} hn => ?_⟩
    · rw [hframe.size, push, Array.size_push]
      exact Nat.le_succ _
    · rw [node?_enter_push] at hn
      split at hn
      · next he =>
        obtain rfl := Option.some.inj hn
        exact Or.inr ⟨he.ge, hp, hl⟩
      · exact Or.inl ⟨other, hn, hrefl id other⟩
  exact hpush.after (hr.alloc hl).2

end Changes

/-- **Moves leave nodes steady.** -/
theorem Move.changes (hm : Move h k) : Changes (fun _ => Node.Steady) h k := by
  have hrefl (_ : NodeId) := Node.Steady.refl
  cases hm with
  | hold ids => exact .of_shrinks hrefl (shrinks_addHandles h ids)
  | handOver ids => exact .of_shrinks hrefl (shrinks_removeHandles h ids)
  | letGo hr hbare => exact .of_shrinks hrefl hr.letGo.2
  | collect hr => exact .of_shrinks hrefl hr.sound.collect.2
  | collectWhile hr ids =>
    have hs := (hr.borrow ids).sound.collect.2
    exact .of_nodes hrefl hs.size rfl hs.places hs.nodes
  | alloc hr hl hp => exact .alloc hrefl hr hl hp
  | write hn hs => exact .setNode hrefl hn hs
  | replace hr hn hs hbare => exact .replaceNode hrefl hr hn hs
  | install r => exact .of_nodes hrefl rfl rfl rfl fun hn => hn
  | configure settings => exact .of_nodes hrefl rfl rfl rfl fun hn => hn

/-- **Defining a variable** leaves every other variable alone. -/
theorem Define.changes {name : String} (hd : Define id name h k) :
    Changes (fun x old node => node = old ∨ x = id ∧ ∃ s b, old = .scope s ∧
      node = .scope { s with bindings := s.bindings.insert name b }) h k := by
  obtain ⟨hn, hr, -⟩ := hd
  exact .replaceNode (fun _ _ => Or.inl rfl) hr hn (Or.inr ⟨rfl, _, _, rfl, rfl⟩)

/-- **Attaching a payload** changes nothing else. -/
theorem Attach.changes (ha : Attach id p h k) :
    Changes (fun x old node => node = old ∨ x = id ∧ ∃ o, old = .object o ∧
      node = .object { o with payload := some p }) h k := by
  obtain ⟨ho, hr⟩ := ha
  exact .replaceNode (fun _ _ => Or.inl rfl) hr (object?_eq_some_iff.mp ho)
    (Or.inr ⟨rfl, _, rfl, rfl⟩)

/-- **Clearing a payload** changes nothing else. -/
theorem Detach.changes (hd : Detach id h k) :
    Changes (fun x old node => node = old ∨ x = id ∧ ∃ o, old = .object o ∧
      node = .object { o with payload := none }) h k := by
  cases hd with
  | @intro o p _ ho hp hr =>
    exact (Changes.setNode_holdPending (fun _ _ => Or.inl rfl) [.payload p]
      (object?_eq_some_iff.mp ho) (Or.inr ⟨rfl, o, rfl, rfl⟩)).after hr.letGo.2

/-- **Binding a function** changes nothing else. -/
theorem Bind.changes {v : Value} (hb : Bind id v h k) :
    Changes (fun x old node => node = old ∨ x = id ∧ ∃ o f, old = .object o ∧
      o.exotic = .function f ∧ f.boundThis = none ∧
      node = .object { o with exotic := .function { f with boundThis := some v } }) h k := by
  obtain ⟨ho, hf, hnone⟩ := hb
  exact .setNode (fun _ _ => Or.inl rfl) (object?_eq_some_iff.mp ho)
    (Or.inr ⟨rfl, _, _, rfl, hf, hnone, rfl⟩)

/-! ## What stays -/

/-- What is alive on `k` was there on `h`, with the same text and, with some exceptions, with the same
payload, or it is new. The same nodes are being changed. -/
structure Persists (except : NodeId → Prop) (h k : Heap) : Prop where
  size_le : h.cells.size ≤ k.cells.size
  borrowed : k.borrowed = h.borrowed
  nodes : ∀ {id node}, k.node? id = some node →
    (∃ old, h.node? id = some old ∧ node.text? = old.text? ∧
        (except id ∨ node.payload? = old.payload?)) ∨
      h.cells.size ≤ id ∧ (except id ∨ node.payload? = none)

namespace Persists

theorem refl (except : NodeId → Prop) (h : Heap) : Persists except h h :=
  ⟨le_rfl, rfl, fun {_ node} hn => Or.inl ⟨node, hn, rfl, Or.inr rfl⟩⟩

theorem trans (hk : Persists except h k) (kl : Persists except k l) : Persists except h l := by
  refine ⟨hk.size_le.trans kl.size_le, kl.borrowed.trans hk.borrowed, fun {id node} hn => ?_⟩
  rcases kl.nodes hn with ⟨mid, hm, ht, hp⟩ | ⟨hs, hp⟩
  · rcases hk.nodes hm with ⟨old, ho, ht', hp'⟩ | ⟨hs, hp'⟩
    · refine Or.inl ⟨old, ho, ht.trans ht', ?_⟩
      rcases hp with he | hp
      · exact Or.inl he
      · exact hp'.imp_right hp.trans
    · refine Or.inr ⟨hs, ?_⟩
      rcases hp with he | hp
      · exact Or.inl he
      · exact hp'.imp_right hp.trans
  · exact Or.inr ⟨hk.size_le.trans hs, hp⟩

theorem of_changes {becomes : NodeId → Node → Node → Prop} (hc : Changes becomes h k)
    (hb : ∀ id old node, becomes id old node → node.text? = old.text? ∧
      (except id ∨ node.payload? = old.payload?)) : Persists except h k := by
  refine ⟨hc.size_le, hc.borrowed, fun {id node} hn => ?_⟩
  rcases hc.nodes hn with ⟨old, hold, hbecomes⟩ | ⟨hle, hp, -⟩
  · exact Or.inl ⟨old, hold, hb id old node hbecomes⟩
  · exact Or.inr ⟨hle, Or.inr hp⟩

end Persists

/-- **Moves persist**: the payloads and texts of live nodes stay. -/
theorem Move.persists (hm : Move h k) : Persists except h k :=
  .of_changes hm.changes fun _ _ _ hs => ⟨hs.text, Or.inr hs.payload⟩

theorem Define.persists {name : String} (hd : Define id name h k) : Persists except h k := by
  refine .of_changes hd.changes fun x old node hb => ?_
  rcases hb with rfl | ⟨-, s, b, rfl, rfl⟩
  · exact ⟨rfl, Or.inr rfl⟩
  · exact ⟨rfl, Or.inr rfl⟩

theorem Bind.persists {v : Value} (hb : Bind id v h k) : Persists except h k := by
  refine .of_changes hb.changes fun x old node hbecomes => ?_
  rcases hbecomes with rfl | ⟨-, o, f, rfl, hf, -, rfl⟩
  · exact ⟨rfl, Or.inr rfl⟩
  · exact ⟨by simp [Node.text?, Object.text?, hf], Or.inr rfl⟩

theorem Attach.persists (ha : Attach id p h k) (he : except id) : Persists except h k := by
  refine .of_changes ha.changes fun x old node hb => ?_
  rcases hb with rfl | ⟨rfl, o, rfl, rfl⟩
  · exact ⟨rfl, Or.inr rfl⟩
  · exact ⟨rfl, Or.inl he⟩

theorem Detach.persists (hd : Detach id h k) (he : except id) : Persists except h k := by
  refine .of_changes hd.changes fun x old node hb => ?_
  rcases hb with rfl | ⟨rfl, o, rfl, rfl⟩
  · exact ⟨rfl, Or.inr rfl⟩
  · exact ⟨rfl, Or.inl he⟩

end Heap

end ScriptCore
