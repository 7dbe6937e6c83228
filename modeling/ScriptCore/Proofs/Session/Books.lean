import ScriptCore.Proofs.Heap.Journal
import ScriptCore.Proofs.Session.Persistence

/-!
# The books of the collector

Every run has a journal (`Session.journal_run`), and between its steps the books of the collector
are what the journal says: `Session.books_run`. That the registry knows every live node, and none
twice, is part of the heap being sound.
-/

namespace ScriptCore

/-- What is known is that there is a journal since a certain heap. -/
abbrev History.journaling (h : Heap) : History :=
  ⟨fun k => ∃ log, Heap.Journal h log k, fun hm hk => by
    obtain ⟨log, hk⟩ := hk
    obtain ⟨more, hm⟩ := hm.journal
    exact ⟨log ++ more, hk.trans hm⟩⟩

namespace Session

/-- Payloads may be attached and cleared, variables defined and functions bound: that is written down
as well. -/
theorem allows_journaling (h : Heap) (s : Session) (r : Request) :
    @Allows (.journaling h) s r := by
  refine @Allows.mk (.journaling h) s r (fun _ hm hk => ?_) (fun _ hm hk => ?_)
    (fun _ hm hk => ?_) fun _ hm hk => ?_
  all_goals
    obtain ⟨log, hk⟩ := hk
    obtain ⟨more, hm⟩ := hm.journal
    exact ⟨log ++ more, hk.trans hm⟩

/-- **Every run has a journal.** -/
theorem journal_run {s : Session} (ha : Agree [] s s) (more : List Step) :
    ∃ log, Heap.Journal s.heap log (s.run more).2.heap := by
  let history : History := .journaling s.heap
  have hstart : history.Admits s.heap := ⟨[], .quiet rfl rfl⟩
  exact admits_run ha hstart (allowsRun_of_forall (allows_journaling s.heap) more s)

/-- **The books are in order** between the steps of every run. Every live node is registered, once;
no collection is under way; and what the books say is what the journal of the run says. -/
theorem books_run (steps : List Step) :
    let h := (initial.run steps).2.heap
    (∀ id, h.isLive id = true → h.collector.registry.toList.count id = 1) ∧
      h.collector.collecting = false ∧ (∃ log, Heap.Journal .initial log h) ∧
      ∀ log, Heap.Journal .initial log h → Heap.Accounts log h := by
  intro h
  have hb : h.Booked := (reachable_run steps).sound.booked
  refine ⟨fun id hl => List.count_eq_one_of_mem hb.nodup (hb.complete hl), hb.idle,
    journal_run (Agree.initial trivial) steps, fun log hj => ?_⟩
  exact hj.accounts [] .initial

/-- With a threshold of six: an object that refers to itself is dropped, and so is a second one;
between them a payload is attached that collects when it is released, and that comes last. -/
def dropped : List Step :=
  [⟨.collector (.threshold (some 6)), none, none⟩,
    ⟨.store (.keep (.object [])), some "ring", none⟩,
    ⟨.object (.assign (.register "ring") (.register "ring") "self"), none, none⟩,
    ⟨.store (.dropRegister "ring"), none, none⟩,
    ⟨.store (.keep (.object [])), some "watched", none⟩,
    ⟨.object (.setPayload (.register "watched") (.watch "last words" true)), none, none⟩,
    ⟨.store (.keep (.object [])), some "ring", none⟩,
    ⟨.object (.assign (.register "ring") (.register "ring") "self"), none, none⟩,
    ⟨.store (.dropRegister "ring"), none, none⟩,
    ⟨.store (.dropRegister "watched"), none, none⟩,
    ⟨.store (.keep (.object [])), some "left", none⟩]

/-- The sixth registration finds the first object, and the payload the second. -/
theorem books_run_dropped :
    let h := (initial.run dropped).2.heap
    h.collector.registry = #[0, 1, 2, 3, 7] ∧ ∃ log, Heap.Journal .initial log h ∧
      (log.flatMap Heap.Entry.results).length = 2 ∧ (log.flatMap Heap.Entry.results).sum = 2 ∧
      Heap.counter log = 1 ∧ Heap.lastThreshold log = 6 ∧
      log.flatMap Heap.Entry.registered = List.range 8 ∧ Heap.Punctual log := by
  intro h
  obtain ⟨_, _, ⟨log, hj⟩, haccounts⟩ := books_run dropped
  have ha : Heap.Accounts log h := haccounts log hj
  have hsize : h.cells.size = 8 := by decide +kernel
  exact ⟨by decide +kernel, log, hj, ha.collections.symm.trans (by decide +kernel),
    ha.total.symm.trans (by decide +kernel), ha.sinceLast.symm.trans (by decide +kernel),
    ha.threshold.symm.trans (by decide +kernel), hsize ▸ ha.registered, ha.punctual⟩

end Session

end ScriptCore
