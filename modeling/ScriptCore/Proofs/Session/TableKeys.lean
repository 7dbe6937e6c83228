import ScriptCore.Proofs.Session.Persistence

/-!
# Values as keys

Equality of keys is an equivalence, and equal keys add the same to a hash. What a session holds adds
the same for as long as it is held, whatever else the steps change, and the keys of its table never
come to equal one another (`Session.keys_lawful`).
-/

namespace ScriptCore

namespace Session

variable {s t : Session} {v : Value} {except : NodeId → Prop}

/-- A value is held by the registers, the scopes or the table of a session. -/
def Holds (s : Session) (v : Value) : Prop := v.links ⊆ s.links

theorem Holds.isLive {id : NodeId} (hv : s.Holds (.object id)) (ha : Agree [] s s) :
    s.heap.isLive id = true :=
  Heap.Reachable.isLive ha.heap.left (List.mem_map_of_mem (hv (List.mem_singleton.mpr rfl)))

theorem hashFeed_object (h : Heap) (id : NodeId) :
    h.hashFeed (.object id) =
      (((h.node? id).bind Node.text?).map HashFeed.text).getD (.identity id) := by
  have htext : h.text? (.object id) = (h.node? id).bind Node.text? := by
    show (h.object? id).bind Object.text? = _
    rw [Heap.object?]
    cases h.node? id with
    | none => rfl
    | some node => cases node <;> rfl
  unfold Heap.hashFeed
  dsimp only
  rw [htext]
  cases (h.node? id).bind Node.text? <;> rfl

/-- **A value that is held adds the same to a hash**, as long as it is held. -/
theorem hashFeed_eq (hs : Agree [] s s) (ht : Agree [] t t)
    (hk : Heap.Persists except s.heap t.heap) (hvs : s.Holds v) (hvt : t.Holds v) :
    t.heap.hashFeed v = s.heap.hashFeed v := by
  cases v with
  | object id =>
    obtain ⟨node, hn⟩ := Heap.isLive_iff_node?.mp (hvt.isLive ht)
    rcases hk.nodes hn with ⟨old, ho, htext, _⟩ | ⟨hnew, _⟩
    · rw [hashFeed_object, hashFeed_object, hn, ho, Option.bind_some, Option.bind_some, htext]
    · exact absurd (Heap.lt_size_of_isLive (hvs.isLive hs)) (Nat.not_lt.mpr hnew)
  | _ => rfl

/-- **An equal key finds the entry** of a key of the table. -/
theorem Agree.tableValue?_eq (ha : Agree [] s t) {key : Value} {entry : Value × Value}
    (hm : entry ∈ s.table) (hk : entry.1.sameKey key = true) :
    s.tableValue? key = some entry.2 := by
  rw [tableValue?, (ha.oneMatch_table key).find?_eq_some hm hk]
  rfl

theorem Agree.eq_of_sameKey (ha : Agree [] s t) {a b : Value × Value} (hma : a ∈ s.table)
    (hmb : b ∈ s.table) (hk : a.1.sameKey b.1 = true) : a = b := by
  have hfa := (ha.oneMatch_table b.1).find?_eq_some hma hk
  have hfb := (ha.oneMatch_table b.1).find?_eq_some hmb (Value.sameKey_refl _)
  exact Option.some.inj (hfa.symm.trans hfb)

theorem agree_run_run (steps more : List Step) :
    Agree [] ((initial.run steps).2.run more).2 ((initial.run steps).2.run more).2 :=
  (agree_run steps).run more (allowsRun_any more _)

/-- **Values are lawful and stable keys.** Equality of keys is an equivalence, with both zeros equal
and whatever is not a number, and on every heap equal keys add the same to a hash. It does not look
at a heap, so it cannot change. After any steps, and any more steps: what is held all along adds the
same to a hash; every key of the table is held, is equal to no other, and is found by all that is
equal to it. -/
theorem keys_lawful (steps more : List Step) :
    (∀ a : Value, a.sameKey a = true) ∧
      (∀ a b : Value, a.sameKey b = true → b.sameKey a = true) ∧
      (∀ a b c : Value, a.sameKey b = true → b.sameKey c = true → a.sameKey c = true) ∧
      (Value.double (.zero true)).sameKey (.double (.zero false)) = true ∧
      (∀ m n, (Double.ofBits m).isNaN = true → (Double.ofBits n).isNaN = true →
        (Value.double (.ofBits m)).sameKey (.double (.ofBits n)) = true) ∧
      (∀ (h : Heap) (a b : Value), a.sameKey b = true → h.hashFeed a = h.hashFeed b) ∧
      let s := (initial.run steps).2
      let t := (s.run more).2
      (∀ v, s.Holds v → t.Holds v → t.heap.hashFeed v = s.heap.hashFeed v) ∧
        ∀ entry ∈ t.table, t.Holds entry.1 ∧
          (∀ other ∈ t.table, entry.1.sameKey other.1 = true → entry = other) ∧
          ∀ key, entry.1.sameKey key = true → t.tableValue? key = some entry.2 := by
  have hnan {m : Nat} (hm : (Double.ofBits m).isNaN = true) : Double.ofBits m = .nan := by
    cases hd : Double.ofBits m with
    | nan => rfl
    | ranked negative rank => simp [hd, Double.isNaN] at hm
  refine ⟨Value.sameKey_refl, fun a b => Value.sameKey_symm, fun a b c => Value.sameKey_trans,
    by decide, fun m n hm hn => ?_, fun h a b => h.hashFeed_eq_of_sameKey, fun v hs ht => ?_,
    fun entry hm => ⟨?_, fun other => (agree_run_run steps more).eq_of_sameKey hm,
      fun key => (agree_run_run steps more).tableValue?_eq hm⟩⟩
  · rw [hnan hm, hnan hn]
    exact Value.sameKey_refl _
  · exact hashFeed_eq (agree_run steps) (agree_run_run steps more)
      (persists_run (agree_run steps) more fun _ _ => trivial) hs ht
  · exact fun l hl => Agree.held_entry hm (List.mem_append_left _ hl)

end Session

end ScriptCore
