import ScriptCore.Proofs.Comparison.Equality
import ScriptCore.Proofs.Comparison.Pairs
import ScriptCore.Proofs.Object.Walks
import ScriptCore.Proofs.Scopes.Environments

/-!
# Copies of compiled functions

A copy of a compiled function is made in every case (`Heap.Hosted.copyCompiled`): a new function with
a new object under `prototype`, which has everything of the original but its scope. The order of
callables does not look at the scope of bytecode, so all functions with one bytecode, name and mark
are level (`Heap.looseEquals_of_bytecode`), while they are different objects.
-/

namespace ScriptCore

def Callable.inScope (f : Callable) (bytecode : List UInt8) (scope : Option NodeId) : Callable :=
  { f with body := .compiled bytecode scope }

namespace Heap

variable {g h k : Heap} {id t x : NodeId} {f : Callable} {bytecode : List UInt8}
  {links more : List Link} {bound : Option NodeId}

/-! ## New functions -/

theorem MadeFunction.grow (hm : MadeFunction g h id f) (hk : Grows h k)
    (hl : k.isLive id = true) : MadeFunction g k id f := by
  obtain ⟨o, ho, -⟩ := exotic_of_callableOf? hm.callable
  have hsame := hk.object?_eq (lt_size_of_node? (object?_eq_some_iff.mp ho)) hl
  obtain ⟨p, hp, hfield⟩ := hm.prototype
  refine ⟨hm.grows.trans hk, hm.fresh, ?_, p, hp, ?_⟩
  · rw [callableOf?, hsame]
    exact hm.callable
  · rw [ownPlainField?, hsame]
    exact hfield

theorem MadeFunction.after (hm : MadeFunction h k id f) (hg : Grows g h) :
    MadeFunction g k id f := by
  obtain ⟨p, hp, hfield⟩ := hm.prototype
  exact ⟨hg.trans hm.grows, hg.size_le.trans hm.fresh, hm.callable, p, hg.size_le.trans hp, hfield⟩

theorem lookupField_of_ownPlainField? {key : String} {v : Value} (hkey : key ≠ protoKey)
    (hlength : key ≠ "length") (hv : h.ownPlainField? id key = some v) :
    h.lookupField id key = v := by
  obtain ⟨o, ho, hv⟩ := Option.bind_eq_some_iff.mp hv
  refine lookupField_of_ownField? hkey ho ?_
  rw [Object.ownField?, if_neg hlength, Option.none_or, hv]

theorem run_copyCompiled {a : NodeId} (hf : h.callableOf? t = some f)
    (hbody : f.body = .compiled bytecode bound)
    (hnew : (HeapM.newFunction (f.inScope bytecode (some x))).run (h.addHandles f.references) =
      (a, k)) :
    (HeapM.copyCompiled t x).run h = (.ok a, k.letGo (f.references.map .reference)) := by
  have hhold : (HeapM.holdCallable f).run h = ((), h.addHandles f.references) := rfl
  have hlet : (HeapM.letGoCallable f).run k = ((), k.letGo (f.references.map .reference)) := rfl
  rw [Callable.inScope] at hnew
  rw [HeapM.copyCompiled, run_get_bind, hf]
  dsimp only
  rw [hbody]
  dsimp only
  rw [run_bind_of_run hhold, run_bind_of_run hnew, run_bind_of_run hlet]
  rfl

theorem Rebinds.object?_eq_of_held {written : NodeId → Prop} (hr : Rebinds written h k)
    (hh : Hosted links h) (hk : Hosted more k) (hm : .object id ∈ links) (km : .object id ∈ more) :
    k.object? id = h.object? id := by
  obtain ⟨o, ho⟩ := hk.exists_object km
  have hlt : id < h.cells.size := lt_size_of_isLive (hh.has _ hm).isLive
  rw [ho, hr.object?_eq hlt ho]

theorem Rebinds.callableOf?_eq {written : NodeId → Prop} (hr : Rebinds written h k)
    (hh : Hosted links h) (hk : Hosted more k) (hm : .object id ∈ links) (km : .object id ∈ more) :
    k.callableOf? id = h.callableOf? id := by
  rw [callableOf?, callableOf?, hr.object?_eq_of_held hh hk hm km]

namespace Hosted

variable (hh : Hosted links h)

include hh

theorem exists_scope_of_body (ht : .object t ∈ links) (hf : h.callableOf? t = some f)
    (hbody : f.body = .compiled bytecode (some x)) : ∃ s, h.scope? x = some s := by
  let history : History := .nesting
  have hx : Link.scope x ∈ f.links := by
    refine List.mem_append_right _ ?_
    rw [hbody]
    exact List.mem_singleton.mpr rfl
  exact hh.agree.exists_scope (Agree.sees_callableOf? (.held ht) hf _ hx)

theorem lt_size_of_ownPlainField? {key : String} {p : NodeId}
    (hp : h.ownPlainField? id key = some (.object p)) : p < h.cells.size := by
  obtain ⟨o, ho, hfield⟩ := Option.bind_eq_some_iff.mp hp
  have hlink : Link.object p ∈ o.links := Object.mem_links_iff.mpr
    (Or.inr (Or.inl ⟨_, Fields.mem_values_of_get? hfield, List.mem_singleton.mpr rfl⟩))
  exact lt_size_of_isLive (hh.reachable.sound.has_links (object?_eq_some_iff.mp ho) _ hlink).isLive

theorem holdCallable (ht : .object t ∈ links) (hf : h.callableOf? t = some f) :
    Hosted (f.links ++ links) (h.addHandles f.references) ∧ Grows h (h.addHandles f.references) := by
  let history : History := .nesting
  have hsees := Agree.sees_callableOf? (.held ht) hf
  rw [← f.map_target_links]
  exact ⟨.of_agree (hh.agree.hold hsees), .of_shrinks (shrinks_addHandles h _)⟩

omit hh in
theorem letGoCallable (hh : Hosted (f.links ++ links) h) :
    Hosted links (h.letGo (f.references.map .reference)) ∧
      Grows h (h.letGo (f.references.map .reference)) :=
  hh.letGo (by rw [Pending.references_map_reference, f.map_target_links])
    (Pending.payloads_map_reference _)

theorem newFunction (hf : f.links ⊆ links) :
    let run := (HeapM.newFunction f).run h
    Hosted (.object run.1 :: links) run.2 ∧ MadeFunction h run.2 run.1 f := by
  let history : History := .nesting
  obtain ⟨-, ha, hm⟩ := hh.agree.runNewFunction hf
  exact ⟨.of_agree ha, hm⟩

/-- **A copy of a compiled function** is made in every case: a new function in the scope, with a new
object under `prototype`. -/
theorem copyCompiled (ht : .object t ∈ links) (hx : .scope x ∈ links)
    (hf : h.callableOf? t = some f) (hbody : f.body = .compiled bytecode bound) :
    ∃ a k, (HeapM.copyCompiled t x).run h = (.ok a, k) ∧ Hosted (.object a :: links) k ∧
      MadeFunction h k a (f.inScope bytecode (some x)) := by
  obtain ⟨hh₁, hg₁⟩ := hh.holdCallable ht hf
  have hlinks : (f.inScope bytecode (some x)).links ⊆ f.links ++ links := fun l hl => by
    rcases List.mem_append.mp hl with hl | hl
    · exact List.mem_append_left _ (List.mem_append_left _ hl)
    · obtain rfl : l = .scope x := by
        simpa [Callable.inScope, Body.links, Body.tracedReferences, Body.hiddenReferences] using hl
      exact List.mem_append_right _ hx
  obtain ⟨hh₂, hm⟩ := hh₁.newFunction hlinks
  rcases hrun : (HeapM.newFunction (f.inScope bytecode (some x))).run (h.addHandles f.references)
    with ⟨a, h₂⟩
  rw [hrun] at hh₂ hm
  obtain ⟨hk, hgk⟩ := (hh₂.perm List.perm_middle.symm).letGoCallable
  exact ⟨a, _, run_copyCompiled hf hbody hrun, hk,
    (hm.after hg₁).grow hgk (hk.reachable.isLive List.mem_cons_self)⟩

end Hosted

/-! ## Level with one another -/

theorem inScope_self (hbody : f.body = .compiled bytecode bound) : f.inScope bytecode bound = f := by
  rw [Callable.inScope, ← hbody]

/-- **Functions of one bytecode are equal**, whatever their scopes. -/
theorem looseEquals_of_bytecode {a b : NodeId} {scope other : Option NodeId}
    (ha : h.callableOf? a = some (f.inScope bytecode scope))
    (hb : h.callableOf? b = some (f.inScope bytecode other)) :
    h.looseEquals (.object a) (.object b) = true := by
  have ha : h.callable? (.object a) = some (f.inScope bytecode scope) := ha
  have hb : h.callable? (.object b) = some (f.inScope bytecode other) := hb
  refine (looseEqualsWithin_iff h _ _ _).mpr ((compareWithin_of_callable? ha hb).trans ?_)
  exact ((Callable.ordersOn_compare h.places).refl trivial :
    (f.inScope bytecode scope).compare h.places (f.inScope bytecode scope) = .eq)

/-! ## Two copies -/

/-- A function, and two copies of it in two scopes, with two objects under `prototype`. -/
structure Copied (h : Heap) (t a b x y : NodeId) (f : Callable) (bytecode : List UInt8) : Prop where
  original : h.callableOf? t = some f
  first : h.callableOf? a = some (f.inScope bytecode (some x))
  second : h.callableOf? b = some (f.inScope bytecode (some y))
  distinct : a ≠ t ∧ b ≠ t ∧ a ≠ b
  prototypes : ∃ p q, h.ownPlainField? a "prototype" = some (.object p) ∧
    h.ownPlainField? b "prototype" = some (.object q) ∧ p ≠ q

/-- Two functions that are equal to each other and to a third, though they are three objects, and
with two objects under `prototype`. -/
structure Twins (h : Heap) (t a b : NodeId) : Prop where
  equal : h.looseEquals (.object a) (.object b) = true
  equal_original : h.looseEquals (.object a) (.object t) = true ∧
    h.looseEquals (.object b) (.object t) = true
  distinct : (Value.object a).strictEquals (.object b) = false
  distinct_original : (Value.object a).strictEquals (.object t) = false ∧
    (Value.object b).strictEquals (.object t) = false
  prototypes : ∃ p q, h.lookupField a "prototype" = .object p ∧
    h.lookupField b "prototype" = .object q ∧ p ≠ q

variable {a b y : NodeId}

namespace Copied

variable (hc : Copied h t a b x y f bytecode)

include hc

/-- **Copies are equal**, and not the same. -/
theorem twins (hbody : f.body = .compiled bytecode bound) : h.Twins t a b := by
  obtain ⟨p, q, hp, hq, hne⟩ := hc.prototypes
  obtain ⟨hat, hbt, hab⟩ := hc.distinct
  have hstrict {x y : NodeId} (hne : x ≠ y) :
      (Value.object x).strictEquals (.object y) = false := beq_eq_false_iff_ne.mpr hne
  have horiginal : h.callableOf? t = some (f.inScope bytecode bound) := by
    rw [inScope_self hbody]
    exact hc.original
  exact ⟨looseEquals_of_bytecode hc.first hc.second,
    ⟨looseEquals_of_bytecode hc.first horiginal, looseEquals_of_bytecode hc.second horiginal⟩,
    hstrict hab, ⟨hstrict hat, hstrict hbt⟩, p, q,
    lookupField_of_ownPlainField? (by decide) (by decide) hp,
    lookupField_of_ownPlainField? (by decide) (by decide) hq, hne⟩

theorem rebinds {written : NodeId → Prop} (hr : Rebinds written h k) (hh : Hosted links h)
    (hk : Hosted more k)
    (hheld : ∀ id ∈ [t, a, b], .object id ∈ links ∧ .object id ∈ more) :
    Copied k t a b x y f bytecode := by
  have hobject (id : NodeId) (hm : id ∈ [t, a, b]) : k.object? id = h.object? id :=
    hr.object?_eq_of_held hh hk (hheld id hm).1 (hheld id hm).2
  have ht := hobject t (by simp)
  have ha := hobject a (by simp)
  have hb := hobject b (by simp)
  refine ⟨?_, ?_, ?_, hc.distinct, ?_⟩
  · rw [callableOf?, ht]
    exact hc.original
  · rw [callableOf?, ha]
    exact hc.first
  · rw [callableOf?, hb]
    exact hc.second
  · rw [ownPlainField?, ownPlainField?, ha, hb]
    exact hc.prototypes

end Copied

/-- **Two copies** can be made, one after the other. -/
theorem Hosted.copyTwice (hh : Hosted links h) (ht : .object t ∈ links) (hx : .scope x ∈ links)
    (hy : .scope y ∈ links) (hf : h.callableOf? t = some f)
    (hbody : f.body = .compiled bytecode bound) :
    ∃ a b h₁ h₂, (HeapM.copyCompiled t x).run h = (.ok a, h₁) ∧
      (HeapM.copyCompiled t y).run h₁ = (.ok b, h₂) ∧
      Hosted (.object b :: .object a :: links) h₂ ∧ Grows h h₂ ∧
      Copied h₂ t a b x y f bytecode := by
  have hlt : t < h.cells.size := lt_size_of_isLive (hh.has _ ht).isLive
  obtain ⟨a, h₁, hrun₁, hh₁, hm₁⟩ := hh.copyCompiled ht hx hf hbody
  have ht₁ : Link.object t ∈ .object a :: links := List.mem_cons_of_mem _ ht
  have hf₁ : h₁.callableOf? t = some f :=
    (hm₁.grows.rebinds.callableOf?_eq hh hh₁ ht ht₁).trans hf
  obtain ⟨b, h₂, hrun₂, hh₂, hm₂⟩ := hh₁.copyCompiled ht₁ (List.mem_cons_of_mem _ hy) hf₁ hbody
  have hr₂ := hm₂.grows.rebinds
  have ha₁ : Link.object a ∈ .object a :: links := List.mem_cons_self
  have ha₂ : Link.object a ∈ .object b :: .object a :: links := List.mem_cons_of_mem _ ha₁
  have ha := hr₂.object?_eq_of_held hh₁ hh₂ ha₁ ha₂
  obtain ⟨p, hp, hfield₁⟩ := hm₁.prototype
  obtain ⟨q, hq, hfield₂⟩ := hm₂.prototype
  -- What the first copy has under `prototype` was there when the second was made.
  have hplt : p < h₁.cells.size := hh₁.lt_size_of_ownPlainField? hfield₁
  have halt : a < h₁.cells.size := lt_size_of_isLive (hh₁.has _ ha₁).isLive
  refine ⟨a, b, h₁, h₂, hrun₁, hrun₂, hh₂, hm₁.grows.trans hm₂.grows, ?_, ?_, hm₂.callable,
    ⟨?_, ?_, ?_⟩, p, q, ?_, hfield₂, Nat.ne_of_lt (hplt.trans_le hq)⟩
  · exact (hr₂.callableOf?_eq hh₁ hh₂ ht₁ (List.mem_cons_of_mem _ ht₁)).trans hf₁
  · exact (hr₂.callableOf?_eq hh₁ hh₂ ha₁ ha₂).trans hm₁.callable
  · exact Nat.ne_of_gt (hlt.trans_le hm₁.fresh)
  · exact Nat.ne_of_gt ((hlt.trans_le hm₁.grows.size_le).trans_le hm₂.fresh)
  · exact Nat.ne_of_lt (halt.trans_le hm₂.fresh)
  · rw [ownPlainField?, ha]
    exact hfield₁

end Heap

end ScriptCore
