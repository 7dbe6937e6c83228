import ScriptCore.Proofs.Agreement.ObjectSteps
import ScriptCore.Proofs.Comparison.Keys
import ScriptCore.Session.Store

/-!
# Registers and the table on sessions that agree

What the session holds is counted exactly: a write to a register or to the table gains the links of
one value, and loses those of the value before (`Session.Agree.change`).
-/

namespace ScriptCore

namespace Session.Agree

variable [History] {s t : Session} {extra more : List Link}

/-- **Other parts of the session change**, and what is held stays the same as a whole. -/
theorem change {s' t' : Session} (ha : Agree extra s t)
    (hp : (extra ++ s.links).Perm (more ++ s'.links)) (hs : s'.runtime = s.runtime)
    (ht : t'.runtime = t.runtime) (hsame : { t' with runtime := s'.runtime } = s')
    (hd : s'.table.Pairwise fun a b => a.1.sameKey b.1 = false) : Agree more s' t' := by
  refine ⟨?_, hsame, hd⟩
  rw [hs, ht]
  exact ha.runtime.perm hp

theorem insertRegister {v : Value} (name : String) (ha : Agree (v.links ++ extra) s t) :
    Agree (valueLinks (s.registers.get? name).toList ++ extra)
      { s with registers := s.registers.insert name v }
      { t with registers := t.registers.insert name v } := by
  obtain ⟨r, rfl⟩ := ha.exists_runtime
  refine ha.change ?_ rfl rfl rfl ha.distinct
  have hfields := (s.registers.perm_values_insert name v).flatMap_right Value.links
  refine List.perm_iff_count.mpr fun l => ?_
  have hcount := hfields.count_eq l
  simp only [List.flatMap_append, List.flatMap_cons, List.count_append] at hcount
  simp only [links, valueLinks, List.count_append]
  omega

theorem eraseRegister {name : String} {v : Value} (ha : Agree extra s t)
    (hv : s.registers.get? name = some v) :
    Agree (v.links ++ extra) { s with registers := s.registers.erase name }
      { t with registers := t.registers.erase name } := by
  obtain ⟨r, rfl⟩ := ha.exists_runtime
  refine ha.change ?_ rfl rfl rfl ha.distinct
  have hfields := (s.registers.perm_values_erase name).flatMap_right Value.links
  rw [hv, Option.toList_some] at hfields
  refine List.perm_iff_count.mpr fun l => ?_
  have hcount := hfields.count_eq l
  simp only [List.flatMap_append, List.flatMap_cons, List.flatMap_nil, List.count_append,
    List.count_nil] at hcount
  simp only [links, valueLinks, List.count_append]
  omega

/-! ## The table -/

theorem oneMatch_table (ha : Agree extra s t) (key : Value) :
    OneMatch (fun entry => entry.1.sameKey key) s.table :=
  ha.distinct.imp fun {a b} hab hk => by
    cases hb : b.1.sameKey key with
    | false => exact hb
    | true =>
      have := Value.sameKey_trans hk (Value.sameKey_symm hb)
      rw [hab] at this
      cases this

omit [History] in
theorem held_entry {entry : Value × Value} (hm : entry ∈ s.table) :
    entry.1.links ++ entry.2.links ⊆ s.links := by
  intro l hl
  have htable : l ∈ tableLinks s.table := List.mem_flatMap.mpr ⟨entry, hm, hl⟩
  simp [links, htable]

/-- An entry that is there keeps its key when its value is replaced. -/
theorem replaceEntry {key v : Value} {entry : Value × Value} (ha : Agree (v.links ++ extra) s t)
    (hf : s.table.find? (fun entry => entry.1.sameKey key) = some entry) :
    Agree (entry.2.links ++ extra)
      { s with table := s.table.map fun entry =>
          if entry.1.sameKey key then (entry.1, v) else entry }
      { t with table := s.table.map fun entry =>
          if entry.1.sameKey key then (entry.1, v) else entry } := by
  obtain ⟨r, rfl⟩ := ha.exists_runtime
  have htable := ((ha.oneMatch_table key).perm_map fun entry => (entry.1, v)).flatMap_right
    fun entry => entry.1.links ++ entry.2.links
  rw [hf] at htable
  refine ha.change ?_ rfl rfl rfl ?_
  · refine List.perm_iff_count.mpr fun l => ?_
    have hcount := htable.count_eq l
    simp only [Option.map_some, Option.toList_some, List.flatMap_append, List.flatMap_cons,
      List.flatMap_nil, List.count_append, List.count_nil] at hcount
    simp only [links, tableLinks, List.count_append]
    omega
  · refine List.pairwise_map.mpr (ha.distinct.imp fun {a b} hab => ?_)
    have hkey (e : Value × Value) : (if e.1.sameKey key then (e.1, v) else e).1 = e.1 := by
      split <;> rfl
    rw [hkey, hkey]
    exact hab

theorem addEntry {key v : Value} (ha : Agree (key.links ++ (v.links ++ extra)) s t)
    (hf : s.table.find? (fun entry => entry.1.sameKey key) = none) :
    Agree extra { s with table := s.table ++ [(key, v)] }
      { t with table := s.table ++ [(key, v)] } := by
  obtain ⟨r, rfl⟩ := ha.exists_runtime
  refine ha.change ?_ rfl rfl rfl ?_
  · refine List.perm_iff_count.mpr fun l => ?_
    simp only [links, tableLinks, List.flatMap_append, List.flatMap_cons, List.flatMap_nil,
      List.count_append, List.count_nil]
    omega
  · refine List.pairwise_append.mpr ⟨ha.distinct, List.pairwise_singleton .., ?_⟩
    intro a hm b hb
    obtain rfl := List.mem_singleton.mp hb
    exact Bool.eq_false_iff.mpr (List.find?_eq_none.mp hf a hm)

theorem removeEntry (key : Value) (ha : Agree extra s t) :
    Agree (tableLinks (s.table.find? fun entry => entry.1.sameKey key).toList ++ extra)
      { s with table := s.table.filter fun entry => !entry.1.sameKey key }
      { t with table := s.table.filter fun entry => !entry.1.sameKey key } := by
  obtain ⟨r, rfl⟩ := ha.exists_runtime
  have htable := (ha.oneMatch_table key).perm_filter.flatMap_right
    fun entry => entry.1.links ++ entry.2.links
  refine ha.change ?_ rfl rfl rfl (ha.distinct.sublist List.filter_sublist)
  refine List.perm_iff_count.mpr fun l => ?_
  have hcount := htable.count_eq l
  simp only [List.flatMap_append, List.count_append] at hcount
  simp only [links, tableLinks, List.count_append]
  omega

end Session.Agree

theorem tableValue?_withRuntime (s : Session) (r : Runtime) (key : Value) :
    Session.tableValue? { s with runtime := r } key = s.tableValue? key := rfl

namespace StepM

variable [History] {s t : Session} {extra more : List Link} {v : Value}

theorem runStore (name : String) (ha : Session.Agree (v.links ++ extra) s t) :
    Alike (store name v) (store name v) s t more fun _ s' t' => Session.Agree extra s' t' := by
  have hwritten := ha.insertRegister name
  obtain ⟨r, rfl⟩ := ha.exists_runtime
  refine Alike.get_bind (Alike.set_bind ?_)
  dsimp only
  cases hv : s.registers.get? name with
  | none =>
    rw [hv] at hwritten
    exact Alike.pure hwritten
  | some old =>
    rw [hv, Option.toList_some, valueLinks_singleton] at hwritten
    exact (Alike.letGo hwritten).mono fun _ s' t' ⟨ha, _⟩ => ha

theorem runDropRegister (name : String) (ha : Session.Agree extra s t) :
    Alike (dropRegister name) (dropRegister name) s t more fun _ s' t' =>
      Session.Agree extra s' t' := by
  obtain ⟨r, rfl⟩ := ha.exists_runtime
  refine Alike.get_bind ?_
  dsimp only
  cases hv : s.registers.get? name with
  | none => exact Alike.pure ha
  | some v =>
    refine Alike.set_bind ?_
    exact (Alike.letGo (ha.eraseRegister hv)).bind fun _ s' t' ⟨ha, _⟩ => Alike.pure ha

theorem runOldFacts {old : Option Value} (n : Nat) (ha : Session.Agree extra s t)
    (ho : ∀ v, old = some v → s.heap.SeesValue (extra ++ s.links) v) :
    PerformsAlike (do return .facts [("old", (← heap).snapshot? old), ("len", .ofNat n)])
      (do return .facts [("old", (← heap).snapshot? old), ("len", .ofNat n)]) s t extra := by
  refine Alike.heap_bind (runFacts ha ?_)
  rw [ha.heap.snapshot?_eq ho]

end StepM

namespace StoreRequest

open StepM

variable [History] {s t : Session} {extra : List Link}

/-- An entry of the table is replaced, or there is one more. -/
theorem performsAlike_tableInsert (key l : Literal) (ha : Session.Agree extra s t) :
    PerformsAlike (tableInsert key l).perform (tableInsert key l).perform s t extra := by
  refine (runTake key ha).bind fun key s₁ t₁ ⟨ha, _, hkey⟩ => ?_
  refine (runTake l ha).bind fun v s₂ t₂ ⟨ha, hs, hv⟩ => ?_
  have hkey : key.links ⊆ s₂.links := List.Subset.trans hkey hs
  obtain ⟨r, rfl⟩ := ha.exists_runtime
  refine Alike.get_bind ?_
  rw [tableValue?_withRuntime]
  unfold Session.tableValue?
  -- The value, and a new key, are held when the table has been written already.
  cases hf : s₂.table.find? fun entry => entry.1.sameKey key with
  | some entry =>
    have hwritten := (ha.holding (sees_taken hv)).replaceEntry hf
    simp only [Option.map_some, Option.isSome_some, if_true]
    refine Alike.set_bind (Alike.hold_bind ?_)
    refine (Alike.keep hwritten).bind fun _ s₃ t₃ ⟨ha, hl⟩ => ?_
    refine runOldFacts _ ha fun old ho => sees_taken ?_
    obtain rfl := Option.some.inj ho
    rw [hl]
    exact List.subset_append_right ..
  | none =>
    have hheld := ha.holding (sees_taken hv)
    have hwritten := (hheld.holding (sees_taken hkey)).addEntry hf
    simp only [Option.map_none, Option.isSome_none, Bool.false_eq_true, if_false]
    refine Alike.set_bind (Alike.hold_bind (Alike.hold_bind ?_))
    exact runOldFacts _ hwritten fun old ho => by cases ho

theorem performsAlike_tableGet (key : Literal) (ha : Session.Agree extra s t) :
    PerformsAlike (tableGet key).perform (tableGet key).perform s t extra := by
  refine (runTake key ha).bind fun key s₁ t₁ ⟨ha, _, hkey⟩ => ?_
  have hsees : ∀ v, s₁.tableValue? key = some v → s₁.heap.SeesValue (extra ++ s₁.links) v := by
    intro v hv
    obtain ⟨entry, hf, rfl⟩ := Option.map_eq_some_iff.mp hv
    refine sees_taken fun l hl => Session.Agree.held_entry (List.mem_of_find?_eq_some hf) ?_
    exact List.mem_append_right _ hl
  obtain ⟨r, rfl⟩ := ha.exists_runtime
  refine Alike.get_bind (runFact "v" ha ?_)
  rw [tableValue?_withRuntime, ha.heap.snapshot?_eq hsees]

/-- The value that is taken out is kept until the step ends. -/
theorem performsAlike_tableRemove (key : Literal) (ha : Session.Agree extra s t) :
    PerformsAlike (tableRemove key).perform (tableRemove key).perform s t extra := by
  refine (runTake key ha).bind fun key s₁ t₁ hq => ?_
  obtain ⟨ha, _, hkey⟩ := hq
  have hremoved := ha.removeEntry key
  obtain ⟨r, rfl⟩ := ha.exists_runtime
  refine Alike.get_bind (Alike.set_bind ?_)
  dsimp only
  cases hf : s₁.table.find? fun entry => entry.1.sameKey key with
  | none =>
    rw [hf] at hremoved
    refine Alike.skip_bind ?_
    exact runOldFacts _ hremoved fun old ho => by cases ho
  | some entry =>
    obtain ⟨k, v⟩ := entry
    have hlinks : tableLinks (some (k, v)).toList = k.links ++ v.links := List.append_nil _
    rw [hf, hlinks, List.append_assoc] at hremoved
    have hkept : ∀ {s t : Session}, Session.Agree (k.links ++ (v.links ++ extra)) s t →
        Alike (do StepM.onHeap (HeapM.letGo k); StepM.keep v)
          (do StepM.onHeap (HeapM.letGo k); StepM.keep v) s t extra fun _ s' t' =>
            Session.Agree extra s' t' ∧ v.links ⊆ s'.links := by
      intro s t ha
      refine (Alike.letGo ha).bind fun _ s₂ t₂ hq => ?_
      obtain ⟨ha, _⟩ := hq
      refine (Alike.keep ha).mono fun _ s₃ t₃ hq => ⟨hq.1, ?_⟩
      obtain ⟨ha, hl⟩ := hq
      rw [hl]
      exact List.subset_append_right ..
    refine (hkept hremoved).bind fun _ s₂ t₂ hq => ?_
    obtain ⟨ha, hv⟩ := hq
    refine runOldFacts _ ha fun old ho => sees_taken ?_
    exact Option.some.inj ho ▸ hv

/-- **Steps about registers and the table** perform the same on both sides. -/
theorem performsAlike (r : StoreRequest) (ha : Session.Agree extra s t) :
    PerformsAlike r.perform r.perform s t extra := by
  cases r with
  | keep l => exact (runMake l ha).bind fun v s₁ t₁ ⟨ha, _⟩ => Alike.pure ha
  | dropRegister name =>
    exact (runDropRegister name ha).bind fun _ s₁ t₁ ha => runFact "dropped" ha rfl
  | tableInsert key l => exact performsAlike_tableInsert key l ha
  | tableGet key => exact performsAlike_tableGet key ha
  | tableRemove key => exact performsAlike_tableRemove key ha

end StoreRequest

end ScriptCore
