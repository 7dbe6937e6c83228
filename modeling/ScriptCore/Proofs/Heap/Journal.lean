import Mathlib
import ScriptCore.Proofs.Heap.Moves

/-!
# The journal of a heap

What the collector keeps books of, written down entry by entry: a node is registered, which may
start a collection by itself; a collection is asked for, by the host or by a payload that is let go;
the threshold is changed. `Journal h log k`: the way from the heap `h` to the heap `k` makes the
entries `log`. Every move makes some entries (`Move.journal`), and so do attaching and detaching
payloads.

The books can be worked out from the entries alone, and that is what they say at any time
(`Accounts`, `Journal.accounts`). The entries also tell which registrations start a collection by
themselves: those that bring the count up to the threshold, and no others (`Punctual`).
-/

namespace ScriptCore

namespace Heap

/-- An entry in the journal of a heap. -/
inductive Entry where
  /-- A node is registered. If that starts a collection, so many nodes are found to be garbage. -/
  | registration (id : NodeId) (collected : Option Nat)
  /-- A collection that was asked for finds so many nodes to be garbage. -/
  | collection (collected : Nat)
  | threshold (n : Nat)
deriving DecidableEq

namespace Entry

def registered : Entry → List NodeId
  | .registration id _ => [id]
  | .collection _ | .threshold _ => []

def results : Entry → List Nat
  | .registration _ collected => collected.toList
  | .collection collected => [collected]
  | .threshold _ => []

/-- How many registrations there have been since the last collection, if there were `n` before. -/
def count (n : Nat) : Entry → Nat
  | .registration _ none => n + 1
  | .registration _ (some _) | .collection _ => 0
  | .threshold _ => n

def thresholdAfter (n : Nat) : Entry → Nat
  | .registration .. | .collection _ => n
  | .threshold n => n

end Entry

/-- How many registrations there have been since the last collection. -/
def counter (log : List Entry) : Nat := log.foldl Entry.count 0

def lastThreshold (log : List Entry) : Nat :=
  log.foldl Entry.thresholdAfter Collector.defaultThreshold

/-- Registrations start collections **on time**: those that bring the count of them up to the
threshold do, and no others, and with a threshold of zero none does. -/
def Punctual (log : List Entry) : Prop :=
  ∀ before id collected after, log = before ++ .registration id collected :: after →
    (collected.isSome = true ↔
      0 < lastThreshold before ∧ lastThreshold before ≤ counter before + 1)

variable {h k l : Heap} {id : NodeId} {held : List NodeId} {node old : Node}
  {items lost : List Pending} {log past : List Entry} {entry : Entry} {p : Payload}

/-- The heap with a new node, entered in the books before it is asked whether a collection is due. -/
def entered (h : Heap) (node : Node) : Heap := (h.push node).enter h.cells.size

/-- The way from one heap to another, with the entries that it makes. -/
inductive Journal : Heap → List Entry → Heap → Prop
  /-- The books are left alone, and no node comes to be. -/
  | quiet {h k : Heap} (hc : k.collector = h.collector) (hs : k.cells.size = h.cells.size) :
      Journal h [] k
  /-- A node is put on the heap and registered. -/
  | registration {h : Heap} {node : Node} {held : List NodeId} (hr : h.Reachable held)
      (hl : ∀ l ∈ node.links, h.Has l) (hk : (h.alloc node).2 = h.entered node) :
      Journal h [.registration h.cells.size none] (h.alloc node).2
  /-- A node is put on the heap and registered, and a collection takes place. -/
  | registrationCollecting {h : Heap} {node : Node} {held : List NodeId} (hr : h.Reachable held)
      (hl : ∀ l ∈ node.links, h.Has l) (hk : (h.alloc node).2 = (h.entered node).collect.1) :
      Journal h [.registration h.cells.size (some (h.entered node).collect.2)] (h.alloc node).2
  | collection {h : Heap} {held : List NodeId} (hr : h.Reachable held) :
      Journal h [.collection h.collect.2] h.collect.1
  | threshold (h : Heap) (settings : Settings) :
      Journal h [.threshold settings.gcThreshold] (h.configure settings)
  | trans {h k l : Heap} {log more : List Entry} (hk : Journal h log k) (kl : Journal k more l) :
      Journal h (log ++ more) l

/-! ## What the books say -/

/-- **The books of a heap** are what its journal says from the beginning. -/
structure Accounts (log : List Entry) (h : Heap) : Prop where
  short : h.collector.registry.size < h.collector.pruneAt
  collections : h.collector.stats.collections = (log.flatMap Entry.results).length
  total : h.collector.stats.totalCollected = (log.flatMap Entry.results).sum
  sinceLast : h.collector.sinceLast = counter log
  threshold : h.collector.threshold = lastThreshold log
  registered : log.flatMap Entry.registered = List.range h.cells.size
  punctual : Punctual log

/-- The books of the heap `k` are those of the heap `h` after one more entry. -/
structure Posts (entry : Entry) (h k : Heap) : Prop where
  short : h.collector.registry.size < h.collector.pruneAt →
    k.collector.registry.size < k.collector.pruneAt
  collections : k.collector.stats.collections =
    h.collector.stats.collections + entry.results.length
  total : k.collector.stats.totalCollected = h.collector.stats.totalCollected + entry.results.sum
  sinceLast : k.collector.sinceLast = entry.count h.collector.sinceLast
  threshold : k.collector.threshold = entry.thresholdAfter h.collector.threshold
  registered : List.range k.cells.size = List.range h.cells.size ++ entry.registered
  punctual : ∀ id collected, entry = .registration id collected → (collected.isSome = true ↔
    0 < h.collector.threshold ∧ h.collector.threshold ≤ h.collector.sinceLast + 1)

theorem counter_concat (log : List Entry) (entry : Entry) :
    counter (log ++ [entry]) = entry.count (counter log) := by
  rw [counter, List.foldl_append]
  rfl

theorem lastThreshold_concat (log : List Entry) (entry : Entry) :
    lastThreshold (log ++ [entry]) = entry.thresholdAfter (lastThreshold log) := by
  rw [lastThreshold, List.foldl_append]
  rfl

theorem Punctual.concat (hp : Punctual log)
    (he : ∀ id collected, entry = .registration id collected →
      (collected.isSome = true ↔ 0 < lastThreshold log ∧ lastThreshold log ≤ counter log + 1)) :
    Punctual (log ++ [entry]) := by
  intro before id collected after heq
  rcases List.eq_nil_or_concat after with rfl | ⟨rest, last, rfl⟩
  · obtain ⟨rfl, hlast⟩ := List.append_inj' heq rfl
    exact he id collected (List.singleton_inj.mp hlast)
  · rw [List.concat_eq_append, ← List.cons_append, ← List.append_assoc] at heq
    exact hp before id collected rest (List.append_inj' heq rfl).1

namespace Accounts

theorem initial : Accounts [] .initial where
  short := by decide
  collections := rfl
  total := rfl
  sinceLast := rfl
  threshold := rfl
  registered := rfl
  punctual before id collected after heq := by simp at heq

theorem quiet (ha : Accounts log h) (hc : k.collector = h.collector)
    (hs : k.cells.size = h.cells.size) : Accounts log k where
  short := hc ▸ ha.short
  collections := hc ▸ ha.collections
  total := hc ▸ ha.total
  sinceLast := hc ▸ ha.sinceLast
  threshold := hc ▸ ha.threshold
  registered := hs ▸ ha.registered
  punctual := ha.punctual

/-- **One more entry.** -/
theorem concat (ha : Accounts log h) (hp : Posts entry h k) : Accounts (log ++ [entry]) k where
  short := hp.short ha.short
  collections := by simp [hp.collections, ha.collections]
  total := by simp [hp.total, ha.total]
  sinceLast := by rw [hp.sinceLast, ha.sinceLast, counter_concat]
  threshold := by rw [hp.threshold, ha.threshold, lastThreshold_concat]
  registered := by simp [hp.registered, ha.registered]
  punctual := ha.punctual.concat (ha.threshold ▸ ha.sinceLast ▸ hp.punctual)

end Accounts

/-! ## What operations do to the books -/

theorem collector_settle (fuel : Nat) : ∀ (items : List Pending) (h : Heap),
    (settle (fun h => (h, 0)) fuel items h).collector = h.collector := by
  induction fuel with
  | zero => exact fun _ _ => rfl
  | succ fuel ih =>
    intro items h
    cases items with
    | nil => rfl
    | cons item rest => exact (ih _ _).trans (collector_letGoOne h item)

/-- **A collection** begins the count again and adds to the total. -/
theorem collector_collect (hi : h.collector.collecting = false) :
    h.collect.1.collector =
      { registry := h.sift.1.toArray
        sinceLast := 0
        threshold := h.collector.threshold
        pruneAt := h.collector.pruneAt
        collecting := false
        stats := ⟨h.collector.stats.collections + 1, h.sift.1.length, h.sift.2.length,
          h.collector.stats.totalCollected + h.sift.2.length⟩ } := by
  have hsettle : ((h.sweep h.sift.1 h.sift.2).settleQuietly
      (h.sift.2.flatMap h.contentsOf)).collector = (h.sweep h.sift.1 h.sift.2).collector :=
    collector_settle _ _ _
  rw [collect_eq hi, endCollection, hsettle]
  rfl

theorem length_sift_fst_le (h : Heap) : h.sift.1.length ≤ h.collector.registry.size := by
  rw [sift, List.partition_eq_filter_filter]
  exact ((List.length_filter_le _ _).trans (List.length_filter_le _ _)).trans
    Array.length_toList.le

/-- **Entering a node** adds one to the count, and leaves the registry shorter than it may be. -/
theorem collector_enter (h : Heap) (id : NodeId) : ∃ registry pruneAt,
    registry.size < pruneAt ∧ (h.enter id).collector = { h.collector with
      registry := registry, pruneAt := pruneAt, sinceLast := h.collector.sinceLast + 1 } := by
  rw [enter]
  dsimp only
  split
  · next hlt => exact ⟨_, _, hlt, rfl⟩
  · refine ⟨_, _, ?_, rfl⟩
    have hmin : 0 < Collector.minPruneLength := by decide
    omega

theorem size_entered (h : Heap) (node : Node) : (h.entered node).cells.size = h.cells.size + 1 :=
  (sameFrame_enter _ _).size.trans (Array.size_push _)

theorem collect_ne (hi : h.collector.collecting = false) : h.collect.1 ≠ h := by
  intro heq
  have hcollections := congrArg (fun k => k.collector.stats.collections) heq
  rw [collector_collect hi] at hcollections
  exact Nat.succ_ne_self _ hcollections

/-! ## One entry -/

theorem posts_collection (hr : h.Reachable held) :
    Posts (.collection h.collect.2) h h.collect.1 := by
  have hi := hr.sound.booked.idle
  have hbooks := collector_collect hi
  have hresult : h.collect.2 = h.sift.2.length := by rw [collect_eq hi]
  refine ⟨fun hshort => ?_, ?_, ?_, ?_, ?_, ?_, nofun⟩
  · rw [hbooks]
    exact (length_sift_fst_le h).trans_lt hshort
  · rw [hbooks]
    rfl
  · rw [hbooks, hresult]
    rfl
  · rw [hbooks]
    rfl
  · rw [hbooks]
    rfl
  · rw [hr.sound.collect.2.size]
    exact (List.append_nil _).symm

theorem posts_threshold (h : Heap) (settings : Settings) :
    Posts (.threshold settings.gcThreshold) h (h.configure settings) :=
  ⟨id, rfl, rfl, rfl, rfl, (List.append_nil _).symm, nofun⟩

theorem isDue_entered (hi : h.collector.collecting = false) (node : Node) :
    (h.entered node).isDue = true ↔
      0 < h.collector.threshold ∧ h.collector.threshold ≤ h.collector.sinceLast + 1 := by
  obtain ⟨registry, pruneAt, _, hbooks⟩ := collector_enter (h.push node) h.cells.size
  have hpush : (h.push node).collector = h.collector := rfl
  rw [isDue, entered, hbooks, hpush, hi]
  simp

theorem alloc_eq (h : Heap) (node : Node) : (h.alloc node).2 =
    if (h.entered node).isDue then (h.entered node).collect.1 else h.entered node := rfl

theorem posts_registration (hr : h.Reachable held) (hl : ∀ l ∈ node.links, h.Has l)
    (hk : (h.alloc node).2 = h.entered node) :
    Posts (.registration h.cells.size none) h (h.alloc node).2 := by
  have hdue : (h.entered node).isDue = false := by
    by_contra hdue
    rw [alloc_eq, if_pos (Bool.not_eq_false _ ▸ hdue)] at hk
    exact collect_ne (hr.enter hl).sound.booked.idle hk
  obtain ⟨registry, pruneAt, hshort, hbooks⟩ := collector_enter (h.push node) h.cells.size
  rw [← entered] at hbooks
  rw [hk]
  refine ⟨fun _ => hbooks ▸ hshort, by rw [hbooks]; rfl, by rw [hbooks]; rfl, by rw [hbooks]; rfl,
    by rw [hbooks]; rfl, ?_, ?_⟩
  · rw [size_entered, List.range_succ]
    rfl
  · rintro id collected heq
    obtain ⟨-, rfl⟩ := Entry.registration.inj heq
    rw [← isDue_entered hr.sound.booked.idle node, hdue]
    simp

/-- A registration after which there has been a collection was one that made it due. -/
theorem posts_registrationCollecting (hr : h.Reachable held) (hl : ∀ l ∈ node.links, h.Has l)
    (hk : (h.alloc node).2 = (h.entered node).collect.1) :
    Posts (.registration h.cells.size (some (h.entered node).collect.2)) h (h.alloc node).2 := by
  have hentered : (h.entered node).Reachable (h.cells.size :: held) := hr.enter hl
  have hdue : (h.entered node).isDue = true := by
    by_contra hdue
    rw [alloc_eq, if_neg hdue] at hk
    exact collect_ne hentered.sound.booked.idle hk.symm
  obtain ⟨registry, pruneAt, hshort, hbooks⟩ := collector_enter (h.push node) h.cells.size
  rw [← entered] at hbooks
  have hcollected := posts_collection hentered
  rw [hk]
  refine ⟨fun _ => hcollected.short (hbooks ▸ hshort), ?_, ?_, hcollected.sinceLast, ?_, ?_, ?_⟩
  · rw [hcollected.collections, hbooks]
    rfl
  · rw [hcollected.total, hbooks]
    rfl
  · rw [hcollected.threshold, hbooks]
    rfl
  · rw [hcollected.registered, size_entered, List.range_succ]
    exact List.append_nil _
  · rintro id collected heq
    obtain ⟨-, rfl⟩ := Entry.registration.inj heq
    rw [← isDue_entered hr.sound.booked.idle node, hdue]
    simp

/-- **The books follow the journal.** -/
theorem Journal.accounts (hj : Journal h log k) :
    ∀ past, Accounts past h → Accounts (past ++ log) k := by
  induction hj with
  | quiet hc hs =>
    intro past ha
    rw [List.append_nil]
    exact ha.quiet hc hs
  | registration hr hl hk => exact fun past ha => ha.concat (posts_registration hr hl hk)
  | registrationCollecting hr hl hk =>
    exact fun past ha => ha.concat (posts_registrationCollecting hr hl hk)
  | collection hr => exact fun past ha => ha.concat (posts_collection hr)
  | threshold h settings => exact fun past ha => ha.concat (posts_threshold h settings)
  | trans _ _ ihk ihl =>
    intro past ha
    rw [← List.append_assoc]
    exact ihl _ (ihk past ha)

/-! ## Moves have journals -/

namespace Journal

theorem quietly (hj : Journal h log k) (hc : l.collector = k.collector)
    (hs : l.cells.size = k.cells.size) : Journal h log l := by
  have htrans := hj.trans (.quiet hc hs)
  rwa [List.append_nil] at htrans

theorem after (hj : Journal k log l) (hc : k.collector = h.collector)
    (hs : k.cells.size = h.cells.size) : Journal h log l := (quiet hc hs).trans hj

end Journal

/-- **Letting one item go** registers nothing. A payload may collect. -/
theorem journal_letGoOne {item : Pending} (hr : h.Reachable (item.references ++ held)) :
    ∃ results : List Nat, Journal h (results.map .collection) (h.letGoOne Heap.collect item).2 := by
  cases item with
  | reference id =>
    exact ⟨[], .quiet (collector_letGoOne_reference _ h id) hr.sound.release.2.size⟩
  | payload p =>
    cases p with
    | integer n => exact ⟨[], .quiet rfl rfl⟩
    | text s => exact ⟨[], .quiet rfl rfl⟩
    | value v => exact ⟨[], .quiet rfl rfl⟩
    | watch name collects =>
      cases collects with
      | false => exact ⟨[], .quiet rfl rfl⟩
      | true => exact ⟨[h.collect.2], (Journal.collection hr).quietly rfl rfl⟩

/-- **Letting go** registers nothing, whatever payloads do meanwhile. -/
theorem journal_letGo (hr : h.Reachable (items.flatMap Pending.references ++ held)) :
    ∃ results : List Nat, Journal h (results.map .collection) (h.letGo items) := by
  refine (hr.letGo_induction
    (P := fun k _ => ∃ results : List Nat, Journal h (results.map .collection) k)
    (fun hk hp => ?_) ⟨[], .quiet rfl rfl⟩).2
  obtain ⟨results, hj⟩ := hp
  obtain ⟨more, hmore⟩ := journal_letGoOne hk
  exact ⟨results ++ more, by rw [List.map_append]; exact hj.trans hmore⟩

@[simp] theorem collector_removeHandles (ids : List NodeId) :
    ∀ h : Heap, (h.removeHandles ids).collector = h.collector := by
  induction ids with
  | nil => exact fun _ => rfl
  | cons id ids ih => exact fun h => (ih (h.removeHandle id)).trans (collector_removeHandle h id)

theorem journal_replaceNode
    (hr : (h.opened id node lost).Reachable (lost.flatMap Pending.references ++ held)) :
    ∃ results : List Nat, Journal h (results.map .collection) (h.replaceNode id node lost) := by
  obtain ⟨results, hj⟩ := journal_letGo hr
  have hc : (h.opened id node lost).collector = h.collector :=
    (collector_setNode _ _ _).trans (collector_addHandles _ _)
  have hs : (h.opened id node lost).cells.size = h.cells.size :=
    (sameFrame_setNode _ _ _).size.trans (sameFrame_addHandles _ h).size
  exact ⟨results, (hj.after hc hs).quietly rfl rfl⟩

/-- **Every move has a journal.** -/
theorem Move.journal (hm : Move h k) : ∃ log, Journal h log k := by
  cases hm with
  | hold ids => exact ⟨[], .quiet (collector_addHandles ids h) (sameFrame_addHandles ids h).size⟩
  | handOver ids =>
    exact ⟨[], .quiet (collector_removeHandles ids h) (sameFrame_removeHandles ids h).size⟩
  | letGo hr _ =>
    obtain ⟨results, hj⟩ := journal_letGo hr
    exact ⟨_, hj⟩
  | collect hr => exact ⟨_, .collection hr⟩
  | collectWhile hr ids =>
    have hborrow : Journal h [] { h with borrowed := ids } := .quiet rfl rfl
    exact ⟨_, (hborrow.trans (.collection (hr.borrow ids))).quietly rfl rfl⟩
  | @alloc node _ hr hl _ =>
    by_cases hdue : (h.entered node).isDue = true
    · exact ⟨_, .registrationCollecting hr hl (if_pos hdue)⟩
    · exact ⟨_, .registration hr hl (if_neg hdue)⟩
  | write _ _ => exact ⟨[], .quiet (collector_setNode h _ _) (sameFrame_setNode h _ _).size⟩
  | replace hr _ _ _ =>
    obtain ⟨results, hj⟩ := journal_replaceNode hr
    exact ⟨_, hj⟩
  | install r => exact ⟨[], .quiet rfl rfl⟩
  | configure settings => exact ⟨_, .threshold h settings⟩

theorem Define.journal {name : String} (hd : Define id name h k) : ∃ log, Journal h log k := by
  obtain ⟨_, hr, _⟩ := hd
  obtain ⟨results, hj⟩ := journal_replaceNode hr
  exact ⟨_, hj⟩

theorem Bind.journal {v : Value} (hb : Bind id v h k) : ∃ log, Journal h log k := by
  obtain ⟨_, _, _⟩ := hb
  exact ⟨[], .quiet (collector_setNode h _ _) (sameFrame_setNode h _ _).size⟩

theorem Attach.journal (ha : Attach id p h k) : ∃ log, Journal h log k := by
  obtain ⟨_, hr⟩ := ha
  obtain ⟨results, hj⟩ := journal_replaceNode hr
  exact ⟨_, hj⟩

theorem Detach.journal (hd : Detach id h k) : ∃ log, Journal h log k := by
  cases hd with
  | @intro o p _ _ _ hr =>
    obtain ⟨results, hj⟩ := journal_letGo hr
    have hc : (h.detached id o p).collector = h.collector :=
      (collector_setNode _ _ _).trans (collector_addHandles _ _)
    have hs : (h.detached id o p).cells.size = h.cells.size :=
      (sameFrame_setNode _ _ _).size.trans (sameFrame_addHandles _ h).size
    exact ⟨_, hj.after hc hs⟩

end Heap

end ScriptCore
