import ScriptCore.Proofs.Heap.Moves

/-!
# Payloads are released once

A payload that watches for its release reports it. `accounted` counts how often a payload has been
released, is attached to live nodes, and is pending. Nothing that lets go adds to the sum, or takes
from it if the release is reported: a payload goes from a node to what is pending when the node dies
or is emptied, and from there to the reports (`settles_letGoOne`), also when a collection starts in
the middle of it (`settles_collect`). So the account settles with every move, and when a payload is
detached (`Move.settles`, `Detach.settles`); attaching one adds one (`Attach.settles`).
-/

namespace ScriptCore

def Release.payload (r : Release) : Payload := .watch r.name r.collected.isSome

namespace Payload

def reports : Payload → Bool
  | .watch _ _ => true
  | _ => false

/-- How an account of a payload may change: nothing is added, and if the payload reports its release,
nothing is lost. -/
def Settles (p : Payload) (after before : Nat) : Prop :=
  after ≤ before ∧ (p.reports = true → after = before)

namespace Settles

variable {p : Payload} {a b c n : Nat}

theorem of_eq (h : a = b) : p.Settles a b := ⟨h.le, fun _ => h⟩

theorem trans (hab : p.Settles a b) (hbc : p.Settles b c) : p.Settles a c :=
  ⟨hab.1.trans hbc.1, fun hp => (hab.2 hp).trans (hbc.2 hp)⟩

theorem add_right (hab : p.Settles a b) (n : Nat) : p.Settles (a + n) (b + n) :=
  ⟨Nat.add_le_add_right hab.1 n, fun hp => congrArg (· + n) (hab.2 hp)⟩

theorem of_add_right (h : p.Settles (a + n) (b + n)) : p.Settles a b :=
  ⟨Nat.le_of_add_le_add_right h.1, fun hp => Nat.add_right_cancel (h.2 hp)⟩

theorem add_count {q : Payload} (hq : q.reports = false) (n : Nat) :
    p.Settles n (n + [q].count p) := by
  refine ⟨Nat.le_add_right _ _, fun hp => ?_⟩
  have hne : q ≠ p := by
    rintro rfl
    rw [hq] at hp
    cases hp
  rw [List.count_eq_zero_of_not_mem (by simpa using hne.symm), Nat.add_zero]

end Settles

end Payload

namespace Heap

/-- How often a payload has been released. -/
def released (h : Heap) (p : Payload) : Nat := (h.releases.map Release.payload).count p

/-- How many live nodes a payload is attached to. -/
def attached (h : Heap) (p : Payload) : Nat := h.total fun cell => cell.node.payload?.toList.count p

/-- How often a payload has been released, is attached and is pending. -/
def accounted (h : Heap) (p : Payload) (items : List Pending) : Nat :=
  h.released p + h.attached p + (items.flatMap Pending.payloads).count p

variable {h k : Heap} {id : NodeId} {held : List NodeId} {items lost : List Pending}
  {old node : Node} {p q : Payload}

theorem payloads_contents (node : Node) :
    node.contents.flatMap Pending.payloads = node.payload?.toList := by
  cases node with
  | object o =>
    simp only [Node.contents, Object.contents, List.flatMap_append,
      Pending.payloads_map_reference, Node.payload?]
    cases o.payload <;> simp [Pending.payloads]
  | scope s => exact Pending.payloads_map_reference _

/-! ## Changes of the heap -/

theorem releases_setNode (h : Heap) (id : NodeId) (node : Node) :
    (h.setNode id node).releases = h.releases := by
  rw [setNode]
  split <;> rfl

theorem releases_addHandles (ids : List NodeId) :
    ∀ h : Heap, (h.addHandles ids).releases = h.releases := by
  induction ids with
  | nil => exact fun _ => rfl
  | cons id ids ih =>
    intro h
    refine (ih (h.addHandle id)).trans ?_
    rw [addHandle]
    split <;> rfl

theorem releases_removeHandle (h : Heap) (id : NodeId) :
    (h.removeHandle id).releases = h.releases := by
  rw [removeHandle]
  split <;> rfl

theorem releases_removeHandles (ids : List NodeId) :
    ∀ h : Heap, (h.removeHandles ids).releases = h.releases := by
  induction ids with
  | nil => exact fun _ => rfl
  | cons id ids ih => exact fun h => (ih _).trans (releases_removeHandle h id)

theorem releases_foldl_emptyNode (ids : List NodeId) :
    ∀ h : Heap, (ids.foldl emptyNode h).releases = h.releases := by
  induction ids with
  | nil => exact fun _ => rfl
  | cons id ids ih =>
    intro h
    refine (ih (h.emptyNode id)).trans ?_
    rw [emptyNode]
    split
    · exact releases_setNode h id _
    · rfl

theorem releases_enter (h : Heap) (id : NodeId) : (h.enter id).releases = h.releases := by
  rw [enter]
  split <;> rfl

theorem accounted_congr (hs : k.cells.size = h.cells.size) (hn : ∀ x, k.node? x = h.node? x)
    (hr : k.releases = h.releases) (items : List Pending) :
    k.accounted p items = h.accounted p items := by
  have htotal : k.attached p = h.attached p :=
    total_congr (fun node => node.payload?.toList.count p) hs hn
  rw [accounted, accounted, released, released, hr, htotal]

theorem accounted_addHandles (h : Heap) (ids : List NodeId) (items : List Pending) :
    (h.addHandles ids).accounted p items = h.accounted p items :=
  accounted_congr (sameFrame_addHandles ids h).size (node?_addHandles ids · h)
    (releases_addHandles ids h) items

theorem accounted_removeHandle (h : Heap) (id : NodeId) (items : List Pending) :
    (h.removeHandle id).accounted p items = h.accounted p items :=
  accounted_congr (sameFrame_removeHandle h id).size (node?_removeHandle h id)
    (releases_removeHandle h id) items

theorem attached_setNode (hn : h.node? id = some old) :
    (h.setNode id node).attached p + old.payload?.toList.count p =
      h.attached p + node.payload?.toList.count p :=
  total_setNode (fun node => node.payload?.toList.count p) node hn

theorem accounted_append (h : Heap) (items rest : List Pending) :
    h.accounted p (items ++ rest) =
      h.accounted p items + (rest.flatMap Pending.payloads).count p := by
  simp only [accounted, List.flatMap_append, List.count_append, Nat.add_assoc]

theorem settles_of_nil (hk : p.Settles (k.accounted p []) (h.accounted p []))
    (items : List Pending) : p.Settles (k.accounted p items) (h.accounted p items) := by
  have hleft := k.accounted_append (p := p) [] items
  have hright := h.accounted_append (p := p) [] items
  rw [List.nil_append] at hleft hright
  rw [hleft, hright]
  exact hk.add_right _

theorem accounted_free (hn : h.node? id = some node) (rest : List Pending) :
    (h.free id).accounted p (node.contents ++ rest) = h.accounted p rest := by
  have hfree : (h.free id).attached p + node.payload?.toList.count p = h.attached p :=
    total_free (fun node => node.payload?.toList.count p) hn
  have hreleased : (h.free id).released p = h.released p := rfl
  simp only [accounted, List.flatMap_append, List.count_append, payloads_contents, hreleased]
  omega

theorem accounted_report (h : Heap) (r : Release) (items : List Pending) :
    (h.report r).accounted p items = h.accounted p items + [r.payload].count p := by
  have hattached : (h.report r).attached p = h.attached p := rfl
  have hreleased : (h.report r).released p = h.released p + [r.payload].count p := by
    rw [released, report, List.map_append, List.count_append]
    rfl
  rw [accounted, accounted, hattached, hreleased]
  omega

theorem attached_push (h : Heap) (node : Node) :
    (h.push node).attached p = h.attached p + node.payload?.toList.count p :=
  total_push h (fun node : Node => node.payload?.toList.count p) node

/-! ## One item -/

/-- **Letting one item go** loses no report and makes none twice. -/
theorem settles_letGoOne (onDemand : Heap → Heap × Nat) {item : Pending} (rest : List Pending)
    (hd : p.Settles ((onDemand h).1.accounted p []) (h.accounted p [])) :
    p.Settles ((h.letGoOne onDemand item).2.accounted p ((h.letGoOne onDemand item).1 ++ rest))
      (h.accounted p (item :: rest)) := by
  cases item with
  | reference id =>
    have hitem : h.accounted p (.reference id :: rest) = (h.removeHandle id).accounted p rest :=
      (accounted_removeHandle h id rest).symm
    rw [hitem]
    refine .of_eq ?_
    simp only [letGoOne]
    split
    · rfl
    · split
      · next node hn =>
        rw [holdPending, accounted_addHandles]
        exact accounted_free hn rest
      · rfl
  | payload q =>
    have hitem : h.accounted p (.payload q :: rest) = h.accounted p rest + [q].count p := by
      simp only [accounted, List.flatMap_cons, Pending.payloads, List.count_append]
      omega
    rw [hitem]
    cases q with
    | integer n => exact .add_count rfl _
    | text s => exact .add_count rfl _
    | value v =>
      have hvalue : h.accounted p (Pending.ofValue v ++ rest) = h.accounted p rest := by
        rw [accounted, List.flatMap_append, Pending.payloads_ofValue]
        rfl
      rw [letGoOne, hvalue]
      exact .add_count rfl _
    | watch name collects =>
      cases collects with
      | false => exact .of_eq (accounted_report h ⟨name, none⟩ rest)
      | true =>
        refine .trans (.of_eq ?_) ((settles_of_nil hd rest).add_right _)
        exact accounted_report (onDemand h).1 ⟨name, some (onDemand h).2⟩ rest

/-! ## Collections -/

theorem settles_settleQuietly (h : Heap) (items : List Pending) :
    p.Settles ((h.settleQuietly items).accounted p []) (h.accounted p items) := by
  refine settle_induction (fun h => (h, 0))
    (P := fun k items' => p.Settles (k.accounted p items') (h.accounted p items))
    (fun k item rest hk => ?_) (fun k _ _ _ => Shrinks.refl k) _ items h le_rfl (.of_eq rfl)
  exact (settles_letGoOne _ rest (.of_eq rfl)).trans hk

/-- The sweep takes payloads off the garbage. -/
theorem accounted_sweep (kept : List NodeId) {garbage : List NodeId} (hd : garbage.Nodup) :
    (h.sweep kept garbage).accounted p (garbage.flatMap h.contentsOf) = h.accounted p [] := by
  let held := h.holdPending (garbage.flatMap h.contentsOf)
  have hemptied (node : Node) : node.emptied.payload?.toList.count p = 0 := by
    cases node <;> rfl
  have hattached : (h.sweep kept garbage).attached p + (garbage.map fun id =>
      ((held.node? id).map fun node => node.payload?.toList.count p).getD 0).sum =
        held.attached p :=
    total_foldl_emptyNode (fun node => node.payload?.toList.count p) hemptied garbage hd held
  have hreleased : (h.sweep kept garbage).released p = h.released p :=
    congrArg (fun rs : List Release => (rs.map Release.payload).count p)
      ((releases_foldl_emptyNode garbage held).trans (releases_addHandles _ h))
  have hheld : held.attached p = h.attached p :=
    total_congr (fun node => node.payload?.toList.count p) (sameFrame_addHandles _ h).size
      (node?_addHandles _ · h)
  simp only [held, holdPending, node?_addHandles] at hattached
  simp only [held, holdPending] at hheld
  rw [accounted, accounted, hreleased, count_flatMap_contentsOf]
  simp only [payloads_contents, List.flatMap_nil, List.count_nil]
  omega

/-- **A collection** loses no report and makes none twice. -/
theorem settles_collect (hr : h.Reachable held) :
    p.Settles (h.collect.1.accounted p []) (h.accounted p []) := by
  rw [collect_eq hr.sound.booked.idle]
  exact (settles_settleQuietly _ _).trans
    (.of_eq (accounted_sweep _ (nodup_sift hr.sound.booked).2))

/-- **Letting go**, with the collections that payloads ask for. -/
theorem settles_letGo (hr : h.Reachable (items.flatMap Pending.references ++ held)) :
    p.Settles ((h.letGo items).accounted p []) (h.accounted p items) :=
  (hr.letGo_induction
    (P := fun k pending => p.Settles (k.accounted p pending) (h.accounted p items))
    (fun hk hsettles => (settles_letGoOne _ _ (settles_collect hk)).trans hsettles) (.of_eq rfl)).2

/-! ## Moves -/

theorem accounted_of_bare (h : Heap) (hbare : items.flatMap Pending.payloads = []) :
    h.accounted p items = h.accounted p [] := by
  rw [accounted, accounted, hbare]
  rfl

theorem accounted_setNode (hn : h.node? id = some old) (items : List Pending) :
    (h.setNode id node).accounted p items + old.payload?.toList.count p =
      h.accounted p items + node.payload?.toList.count p := by
  have hattached : (h.setNode id node).attached p + old.payload?.toList.count p =
      h.attached p + node.payload?.toList.count p := attached_setNode hn
  have hreleased : (h.setNode id node).released p = h.released p := by
    rw [released, released, releases_setNode]
  rw [accounted, accounted, hreleased]
  omega

theorem settles_replaceNode
    (hr : (h.opened id node lost).Reachable (lost.flatMap Pending.references ++ held))
    (hn : h.node? id = some old) :
    p.Settles ((h.replaceNode id node lost).accounted p [] + old.payload?.toList.count p)
      (h.accounted p lost + node.payload?.toList.count p) := by
  have hopened : (h.opened id node lost).accounted p lost + old.payload?.toList.count p =
      (h.holdPending lost).accounted p lost + node.payload?.toList.count p :=
    accounted_setNode ((node?_addHandles _ id h).trans hn) lost
  rw [holdPending, accounted_addHandles] at hopened
  rw [← hopened]
  exact (settles_letGo hr).add_right _

theorem settles_enter (hp : node.payload? = none) :
    p.Settles (((h.push node).enter h.cells.size).accounted p []) (h.accounted p []) := by
  have hpush : (h.push node).accounted p [] = h.accounted p [] := by
    have hattached := attached_push h node (p := p)
    rw [hp] at hattached
    exact congrArg (h.released p + · + 0) hattached
  refine .of_eq ((accounted_congr (sameFrame_enter _ _).size (node?_enter _ _) ?_ []).trans hpush)
  exact releases_enter _ _

/-- **No move** loses a report or makes one twice. -/
theorem Move.settles (hm : Move h k) : p.Settles (k.accounted p []) (h.accounted p []) := by
  cases hm with
  | hold ids => exact .of_eq (accounted_addHandles h ids [])
  | handOver ids =>
    exact .of_eq (accounted_congr (sameFrame_removeHandles ids h).size (node?_removeHandles ids · h)
      (releases_removeHandles ids h) [])
  | letGo hr hbare => exact (settles_letGo hr).trans (.of_eq (accounted_of_bare h hbare))
  | collect hr => exact settles_collect hr
  | collectWhile hr ids => exact settles_collect (hr.borrow ids)
  | @alloc node _ hr hl hp =>
    have henter := settles_enter (h := h) (p := p) hp
    rw [Heap.alloc, register]
    dsimp only
    split
    · exact (settles_collect (hr.enter hl)).trans henter
    · exact henter
  | @write id old node hn hs =>
    have hset : (h.setNode id node).accounted p [] + _ = _ := accounted_setNode hn []
    rw [hs.payload] at hset
    exact .of_eq (Nat.add_right_cancel hset)
  | replace hr hn hs hbare =>
    have hset := settles_replaceNode (p := p) hr hn
    rw [hs.payload, accounted_of_bare h hbare] at hset
    exact hset.of_add_right
  | install r => exact .of_eq rfl
  | configure settings => exact .of_eq rfl

theorem Define.settles {name : String} (hd : Define id name h k) :
    p.Settles (k.accounted p []) (h.accounted p []) := by
  obtain ⟨hn, hr, hbare⟩ := hd
  have hset := settles_replaceNode (p := p) hr hn
  rw [accounted_of_bare h hbare] at hset
  exact hset.of_add_right

theorem Bind.settles {v : Value} (hb : Bind id v h k) :
    p.Settles (k.accounted p []) (h.accounted p []) := by
  obtain ⟨ho, _, _⟩ := hb
  exact .of_eq (Nat.add_right_cancel (accounted_setNode (object?_eq_some_iff.mp ho) []))

/-- **Attaching a payload** adds one; the payload before it is released. -/
theorem Attach.settles (ha : Attach id q h k) :
    p.Settles (k.accounted p []) (h.accounted p [] + [q].count p) := by
  cases ha with
  | @intro o _ ho hr =>
    have hset := settles_replaceNode (p := p) hr (object?_eq_some_iff.mp ho)
    have hpayloads : (o.payload.toList.map Pending.payload).flatMap Pending.payloads =
        o.payload.toList := by cases o.payload <;> rfl
    have hlost : h.accounted p (o.payload.toList.map .payload) =
        h.accounted p [] + o.payload.toList.count p := by
      rw [accounted, accounted, hpayloads]
      rfl
    rw [hlost, Nat.add_right_comm] at hset
    exact hset.of_add_right

/-- **Detaching a payload** releases it. -/
theorem Detach.settles (hd : Detach id h k) :
    p.Settles (k.accounted p []) (h.accounted p []) := by
  cases hd with
  | @intro o q _ ho hq hr =>
    have hn := (node?_addHandles ([Pending.payload q].flatMap Pending.references) id h).trans
      (object?_eq_some_iff.mp ho)
    have hset : (h.detached id o q).accounted p [.payload q] + o.payload.toList.count p =
        (h.holdPending [.payload q]).accounted p [.payload q] + 0 :=
      accounted_setNode hn [.payload q]
    have hpending := h.accounted_append (p := p) [] [.payload q]
    have hpayloads : [Pending.payload q].flatMap Pending.payloads = [q] := rfl
    rw [hpayloads, List.nil_append] at hpending
    rw [hq, Option.toList_some, holdPending, accounted_addHandles, hpending] at hset
    exact (settles_letGo hr).trans (.of_eq (Nat.add_right_cancel hset))

end Heap

end ScriptCore
