import ScriptCore.Proofs.Heap.Repeated
import ScriptCore.Proofs.Session.Invisible
import ScriptCore.Proofs.Session.Persistence

/-!
# What collections leave between steps

Between steps a host may collect again and again (`Session.heap_run_collections`). The passes run dry,
and by then nothing has leaked but what is tied up in cycles through references that a collection
does not follow (`Session.passes_run_dry`).
-/

namespace ScriptCore

namespace Heap

/-- A rank for nodes that rises along no reference and falls along hidden ones. -/
def ranks (h : Heap) (rank : NodeId → Nat) : Bool :=
  (List.range h.cells.size).all fun a => (h.node? a).all fun node =>
    node.references.all (fun b => decide (rank b ≤ rank a)) &&
      node.hiddenReferences.all fun b => decide (rank b < rank a)

theorem openHanded_of_ranks {h : Heap} (rank : NodeId → Nat) (hr : h.ranks rank = true) :
    h.OpenHanded := by
  have hnode {a : NodeId} {node : Node} (hn : h.node? a = some node) :
      (∀ b ∈ node.references, rank b ≤ rank a) ∧ ∀ b ∈ node.hiddenReferences, rank b < rank a := by
    have ha := List.all_eq_true.mp hr a (List.mem_range.mpr (lt_size_of_node? hn))
    simpa [hn] using ha
  have hpath {a b : NodeId} (hp : Relation.ReflTransGen h.Stores b a) : rank a ≤ rank b := by
    induction hp with
    | refl => exact le_rfl
    | tail _ hstep ih =>
      obtain ⟨node, hn, hm⟩ := hstep
      exact ((hnode hn).1 _ hm).trans ih
  rintro a b ⟨node, hn, hm⟩ hp
  exact absurd ((hnode hn).2 b hm) (Nat.not_lt.mpr (hpath hp))

end Heap

namespace Session

def collections (n : Nat) : List Step :=
  List.replicate n ⟨.collector (.collect none), none, none⟩

theorem heap_step_collection {s : Session} (ha : Agree [] s s) (ht : s.temporaries = []) :
    (s.step ⟨.collector (.collect none), none, none⟩).2.heap = s.heap.collect.1 := by
  have hb : s.heap.collect.1.borrowed = s.heap.borrowed :=
    (Heap.Reachable.sound ha.heap.left).collect.2.borrowed
  rw [step_collection ht rfl]
  show { s.heap.collect.1 with borrowed := s.heap.borrowed } = s.heap.collect.1
  rw [← hb]

/-- **Passes are what a host makes** by asking for collections. -/
theorem heap_run_collections (n : Nat) : ∀ {s : Session}, Agree [] s s → s.temporaries = [] →
    (s.run (collections n)).2.heap = s.heap.afterPasses n := by
  induction n with
  | zero => exact fun _ _ => rfl
  | succ n ih =>
    intro s ha ht
    have hnext := ha.step ⟨.collector (.collect none), none, none⟩ (s.allows_any _)
    rw [Heap.afterPasses_succ, ← heap_step_collection ha ht, ← ih hnext (s.temporaries_step _)]
    rfl

/-- **Collecting again and again leaves no garbage**, from every state between steps. After as many
passes as there are live nodes, the next one finds nothing. When a pass has found nothing, and no
hidden reference lies on a cycle, what is alive is what can be reached from the host or the
prototypes. Without hidden references one pass frees exactly what cannot be reached. -/
theorem passes_run_dry (steps : List Step) :
    let s := (initial.run steps).2
    let held := s.links.map Link.target
    (∀ n, s.heap.liveCells.length ≤ n → (s.heap.afterPasses n).collect.2 = 0) ∧
      (s.heap.OpenHanded → ∀ n, (s.heap.afterPasses n).collect.2 = 0 →
        ∀ id, (s.heap.afterPasses (n + 1)).isLive id = true ↔
          (s.heap.afterPasses (n + 1)).ReachedFrom held id) ∧
      ((∀ a b, ¬ s.heap.Hides a b) →
        (∀ id, s.heap.collect.1.isLive id = true ↔ s.heap.ReachedFrom held id) ∧
          s.heap.collect.1.collect.2 = 0) := by
  intro s held
  have hr : s.heap.Reachable held := reachable_run steps
  have hb : s.heap.borrowed = [] := borrowed_run steps
  refine ⟨fun n hn => Heap.collect_afterPasses_snd_eq_zero hr hn, fun hopen n hz id => ?_,
    fun hplain => Heap.collect_of_plain hr hb hplain⟩
  obtain ⟨hn, hk⟩ := hr.afterPasses n
  obtain ⟨hn', hk'⟩ := hr.afterPasses (n + 1)
  refine ⟨fun hl => ?_, hn'.isLive_of_reachedFrom⟩
  exact Heap.reachedFrom_of_empty hn' (hk'.borrowed.trans hb) (hk'.openHanded hopen)
    (Heap.collect_collect_snd_eq_zero hn hz) hl

/-- An object that refers to itself, in the payload of another one. -/
def tuckedAway : List Step :=
  [⟨.store (.keep (.object [])), some "inner", none⟩,
    ⟨.object (.assign (.register "inner") (.register "inner") "self"), none, none⟩,
    ⟨.store (.keep (.object [])), some "outer", none⟩,
    ⟨.object (.assign (.register "outer") (.register "outer") "self"), none, none⟩,
    ⟨.object (.setPayload (.register "outer") (.value (.register "inner"))), none, none⟩,
    ⟨.store (.dropRegister "inner"), none, none⟩,
    ⟨.store (.dropRegister "outer"), none, none⟩]

/-- The two go one after the other. -/
theorem passes_run_dry_tuckedAway :
    let s := (initial.run tuckedAway).2
    s.heap.OpenHanded ∧ s.heap.collect.2 = 1 ∧ (s.heap.afterPasses 1).collect.2 = 1 ∧
      (s.heap.afterPasses 2).collect.2 = 0 ∧
      ∀ id, (s.heap.afterPasses 3).isLive id = true ↔
        (s.heap.afterPasses 3).ReachedFrom (s.links.map Link.target) id := by
  intro s
  have hopen : s.heap.OpenHanded :=
    Heap.openHanded_of_ranks (fun id => if id = 5 then 1 else 0) (by decide +kernel)
  have hdry : (s.heap.afterPasses 2).collect.2 = 0 := by decide +kernel
  exact ⟨hopen, by decide +kernel, by decide +kernel, hdry,
    (passes_run_dry tuckedAway).2.1 hopen 2 hdry⟩

end Session

end ScriptCore
