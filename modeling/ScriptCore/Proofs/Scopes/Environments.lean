import ScriptCore.Operator
import ScriptCore.Proofs.Agreement.Showing
import ScriptCore.Proofs.Heap.Growth
import ScriptCore.Proofs.Scopes.Nesting

/-!
# Environments

What can be told of a scope: its variables and those of the scopes around it, each with its name,
whether it may be assigned to, and the number or the text of its value (`Heap.environment`).

`Rebinds written h k`: of the nodes that were there on `h`, those that are alive on `k` are what they
were, except that some scopes have other variables. A value that is alive on both is read as before
(`Rebinds.reading_eq`), since no object has changed, and so is an environment without any of these
scopes (`Rebinds.environment_eq`).
-/

namespace ScriptCore

/-- A variable, as far as it can be told: the value by its reading. -/
structure Variable where
  name : String
  isMutable : Bool
  reading : Operator.Outcome
deriving DecidableEq

namespace Heap

/-- What can be told of a value: a scalar by itself, and an object by its text. -/
def reading (h : Heap) (v : Value) : Operator.Outcome :=
  match v with
  | .object _ => .text (h.toText v)
  | v => .value v

def variableOf (h : Heap) (entry : String × Binding) : Variable :=
  ⟨entry.1, entry.2.isMutable, h.reading entry.2.value⟩

/-- The variables of a scope, in the order in which they were defined. -/
def variablesIn (h : Heap) (id : NodeId) : List Variable :=
  match h.scope? id with
  | some s => s.bindings.entries.map h.variableOf
  | none => []

/-- The variables of a scope and of the scopes around it, innermost first. -/
def environment (h : Heap) (id : NodeId) : List (List Variable) := (h.scopes id).map h.variablesIn

def HasValue (h : Heap) (v : Value) : Prop := ∀ l ∈ v.links, h.Has l

/-- A heap that a program can come to, with these links held on it, and with its scopes nested. -/
structure Hosted (links : List Link) (h : Heap) : Prop where
  reachable : h.Reachable (links.map Link.target)
  has : ∀ l ∈ links, h.Has l
  nested : h.Nested

/-- Nodes that were there are what they were or have died, but for the variables of some scopes. -/
structure Rebinds (written : NodeId → Prop) (h k : Heap) : Prop where
  size_le : h.cells.size ≤ k.cells.size
  displayDepth : k.displayDepth = h.displayDepth
  nodes : ∀ {id node}, id < h.cells.size → k.node? id = some node → h.node? id = some node ∨
    written id ∧ ∃ s s' : Scope, h.scope? id = some s ∧ node = .scope s' ∧ s'.outer = s.outer

variable {g h k : Heap} {id z : NodeId} {s : Scope} {o : Object} {v : Value} {name : String}
  {links more : List Link} {written : NodeId → Prop}

/-! ## Hosts -/

namespace Hosted

theorem of_agree (ha : @Agree .nesting links h k) : Hosted links h := by
  obtain ⟨hm, hn, _⟩ := ha
  exact ⟨hm.left, hm.has, hn⟩

theorem agree (hh : Hosted links h) : @Agree .nesting links h h :=
  @Agree.refl .nesting _ _ hh.reachable hh.has hh.nested

theorem perm (hh : Hosted links h) (hp : links.Perm more) : Hosted more h :=
  ⟨hh.reachable.perm (hp.map _), fun l hl => hh.has l (hp.mem_iff.mpr hl), hh.nested⟩

theorem letGo {items : List Pending} (hh : Hosted (more ++ links) h)
    (hi : items.flatMap Pending.references = more.map Link.target)
    (hbare : items.flatMap Pending.payloads = []) :
    Hosted links (h.letGo items) ∧ Grows h (h.letGo items) := by
  let history : History := .nesting
  have hr := hh.reachable
  rw [List.map_append, ← hi] at hr
  exact ⟨.of_agree (hh.agree.letGo hi hbare), .of_shrinks hr.letGo.2⟩

theorem letGoValue (hh : Hosted (v.links ++ links) h) :
    Hosted links (h.letGo (Pending.ofValue v)) ∧ Grows h (h.letGo (Pending.ofValue v)) :=
  hh.letGo (by rw [Pending.references_ofValue, v.map_target_links]) (Pending.payloads_ofValue v)

theorem hasValue (hh : Hosted links h) (hv : v.links ⊆ links) : h.HasValue v :=
  fun l hl => hh.has l (hv hl)

theorem exists_scope (hh : Hosted links h) (hm : .scope id ∈ links) : ∃ s, h.scope? id = some s := by
  obtain ⟨s, hn⟩ := hh.has _ hm
  exact ⟨s, scope?_eq_some_iff.mpr hn⟩

theorem exists_object (hh : Hosted links h) (hm : .object id ∈ links) :
    ∃ o, h.object? id = some o := by
  obtain ⟨o, hn⟩ := hh.has _ hm
  exact ⟨o, object?_eq_some_iff.mpr hn⟩

theorem hasValue_binding (hh : Hosted links h) (hs : h.scope? id = some s) {b : Binding}
    (hb : b ∈ s.bindings.values) : h.HasValue b.value := fun l hl =>
  hh.reachable.sound.has_links (scope?_eq_some_iff.mp hs) l
    (Scope.mem_links_iff.mpr (Or.inl ⟨b, hb, hl⟩))

theorem exists_outer (hh : Hosted links h) (hs : h.scope? id = some s) {outer : NodeId}
    (ho : s.outer = some outer) : ∃ s', h.scope? outer = some s' := by
  obtain ⟨s', hn⟩ := hh.reachable.sound.has_links (scope?_eq_some_iff.mp hs) (.scope outer)
    (Scope.mem_links_iff.mpr (Or.inr ⟨outer, ho, rfl⟩))
  exact ⟨s', scope?_eq_some_iff.mpr hn⟩

end Hosted

/-! ## Other variables -/

namespace Rebinds

theorem of_grows (hg : Grows h k) : Rebinds written h k :=
  ⟨hg.size_le, hg.displayDepth, fun hlt hn => Or.inl (hg.nodes hlt hn)⟩

theorem mono {more : NodeId → Prop} (hr : Rebinds written h k) (hm : ∀ id, written id → more id) :
    Rebinds more h k :=
  ⟨hr.size_le, hr.displayDepth, fun hlt hn => (hr.nodes hlt hn).imp_right fun hw =>
    ⟨hm _ hw.1, hw.2⟩⟩

theorem trans (hg : Rebinds written g h) (hk : Rebinds written h k) : Rebinds written g k := by
  refine ⟨hg.size_le.trans hk.size_le, hk.displayDepth.trans hg.displayDepth,
    fun {id node} hlt hn => ?_⟩
  rcases hk.nodes (hlt.trans_le hg.size_le) hn with hn | ⟨hw, s, s', hs, hnode, ho⟩
  · exact hg.nodes hlt hn
  · refine Or.inr ⟨hw, ?_⟩
    rcases hg.nodes hlt (scope?_eq_some_iff.mp hs) with hn | ⟨_, s₀, s₁, hs₀, hnode₁, ho₁⟩
    · exact ⟨s, s', scope?_eq_some_iff.mpr hn, hnode, ho⟩
    · obtain rfl := Node.scope.inj hnode₁
      exact ⟨s₀, s', hs₀, hnode, ho.trans ho₁⟩

variable (hr : Rebinds written h k)

include hr

theorem object?_eq (hlt : id < h.cells.size) (ho : k.object? id = some o) :
    h.object? id = some o := by
  rcases hr.nodes hlt (object?_eq_some_iff.mp ho) with hn | ⟨_, _, _, _, hnode, _⟩
  · exact object?_eq_some_iff.mpr hn
  · cases hnode

theorem scope?_eq (hlt : id < h.cells.size) (hs : k.scope? id = some s) (hw : ¬written id) :
    h.scope? id = some s := by
  rcases hr.nodes hlt (scope?_eq_some_iff.mp hs) with hn | ⟨hw', _⟩
  · exact scope?_eq_some_iff.mpr hn
  · exact absurd hw' hw

theorem exists_scope (hlt : id < h.cells.size) (hs : k.scope? id = some s) :
    ∃ s', h.scope? id = some s' ∧ s.outer = s'.outer := by
  rcases hr.nodes hlt (scope?_eq_some_iff.mp hs) with hn | ⟨_, s', _, hs', hnode, ho⟩
  · exact ⟨s, scope?_eq_some_iff.mpr hn, rfl⟩
  · obtain rfl := Node.scope.inj hnode
    exact ⟨s', hs', ho⟩

variable {held held' : List Link} (hh : Hosted held h) (hk : Hosted held' k)

include hh hk

/-- **A value that is still there is read as before.** -/
theorem reading_eq (hv : h.HasValue v) (kv : k.HasValue v) : k.reading v = h.reading v := by
  have hobject (x : NodeId) (hx : h.HasValue (.object x)) (kx : k.HasValue (.object x)) :
      ∃ o, h.object? x = some o ∧ k.object? x = some o := by
    obtain ⟨o, ho⟩ := kx _ (List.mem_singleton.mpr rfl)
    have ho := object?_eq_some_iff.mpr ho
    exact ⟨o, hr.object?_eq (lt_size_of_isLive (hx _ (List.mem_singleton.mpr rfl)).isLive) ho, ho⟩
  have hmembers (x : NodeId) (hx : h.HasValue (.object x) ∧ k.HasValue (.object x)) :
      ∃ o, h.object? x = some o ∧ k.object? x = some o ∧
        (∀ e ∈ o.fields.values, h.HasValue e ∧ k.HasValue e) ∧
        ∀ elements, o.exotic = .array elements →
          ∀ e ∈ elements.toList, h.HasValue e ∧ k.HasValue e := by
    obtain ⟨o, ho, ko⟩ := hobject x hx.1 hx.2
    have hlinks := hh.reachable.sound.has_links (object?_eq_some_iff.mp ho)
    have klinks := hk.reachable.sound.has_links (object?_eq_some_iff.mp ko)
    have hfield {e : Value} (he : e ∈ o.fields.values) {l : Link} (hl : l ∈ e.links) : l ∈ o.links :=
      Object.mem_links_iff.mpr (Or.inr (Or.inl ⟨e, he, hl⟩))
    have helement {elements : Array Value} (hx : o.exotic = .array elements) {e : Value}
        (he : e ∈ elements.toList) {l : Link} (hl : l ∈ e.links) : l ∈ o.links :=
      Object.mem_links_iff.mpr (Or.inr (Or.inr (Or.inr (Or.inr (Or.inr
        (by rw [hx]; exact List.mem_flatMap.mpr ⟨e, he, hl⟩))))))
    exact ⟨o, ho, ko, fun e he => ⟨fun l hl => hlinks l (hfield he hl),
      fun l hl => klinks l (hfield he hl)⟩, fun elements hx e he =>
      ⟨fun l hl => hlinks l (helement hx he hl), fun l hl => klinks l (helement hx he hl)⟩⟩
  cases v with
  | object x =>
    obtain ⟨o, ho, ko⟩ := hobject x hv kv
    have htext : k.text? (.object x) = h.text? (.object x) := by
      show (k.object? x).bind _ = (h.object? x).bind _
      rw [ho, ko]
    have hdisplay : k.display (.object x) = h.display (.object x) := by
      rw [display, display, hr.displayDepth]
      exact render_congr (P := fun v => h.HasValue v ∧ k.HasValue v) hmembers _ _ _ _ ⟨hv, kv⟩
    exact congrArg Operator.Outcome.text (by rw [toText, toText, htext, hdisplay])
  | _ => rfl

/-- **Environments are where they were.** -/
theorem scopes_eq (hlt : id < h.cells.size) (hs : ∃ s, k.scope? id = some s) :
    k.scopes id = h.scopes id := by
  induction id using hk.nested.scopes_induction with
  | hstep id s hsome ih =>
    obtain ⟨s', hs', ho⟩ := hr.exists_scope hlt hsome
    rw [hk.nested.scopes_cons hsome, hh.nested.scopes_cons hs', ho]
    cases houter : s'.outer with
    | none => rfl
    | some outer =>
      have houter := ho.trans houter
      rw [Option.toList_some, List.flatMap_singleton, List.flatMap_singleton,
        ih outer houter ((hk.nested.outer_lt hsome houter).trans hlt)
          (hk.exists_outer hsome houter)]
  | hnone id hnone => simp [hnone] at hs

theorem variablesIn_eq (hlt : id < h.cells.size) (hs : k.scope? id = some s) (hw : ¬written id) :
    k.variablesIn id = h.variablesIn id := by
  have hs' := hr.scope?_eq hlt hs hw
  rw [variablesIn, variablesIn, hs, hs']
  refine List.map_congr_left fun entry hm => ?_
  have hb : entry.2 ∈ s.bindings.values := Fields.mem_values_iff.mpr ⟨entry.1, hm⟩
  rw [variableOf, variableOf,
    hr.reading_eq hh hk (hh.hasValue_binding hs' hb) (hk.hasValue_binding hs hb)]

/-- **An environment with no scope written is what it was.** -/
theorem environment_eq (hlt : id < h.cells.size) (hs : ∃ s, k.scope? id = some s)
    (hw : ∀ z ∈ h.scopes id, ¬written z) : k.environment id = h.environment id := by
  have hscopes := hr.scopes_eq hh hk hlt hs
  rw [environment, environment, hscopes]
  refine List.map_congr_left fun z hz => ?_
  obtain ⟨s, hs⟩ := hk.nested.scope_of_mem_scopes (hscopes ▸ hz)
  exact hr.variablesIn_eq hh hk ((hh.nested.le_of_mem_scopes hz).trans_lt hlt) hs (hw z hz)

theorem environment_of_written {p : NodeId} {inner outer : List NodeId}
    (hp : ∀ z, written z → z = p) (hscopes : h.scopes id = inner ++ p :: outer)
    (hlt : id < h.cells.size) (hs : ∃ s, k.scope? id = some s) :
    k.environment id =
      inner.map h.variablesIn ++ k.variablesIn p :: outer.map h.variablesIn := by
  have hkscopes := hr.scopes_eq hh hk hlt hs
  have hother {z : NodeId} (hz : z ∈ h.scopes id) (hne : z ≠ p) :
      k.variablesIn z = h.variablesIn z := by
    obtain ⟨s, hs⟩ := hk.nested.scope_of_mem_scopes (hkscopes ▸ hz)
    exact hr.variablesIn_eq hh hk ((hh.nested.le_of_mem_scopes hz).trans_lt hlt) hs
      fun hw => hne (hp z hw)
  have hdistinct : p ∉ inner ∧ p ∉ outer := by
    have hn := hscopes ▸ hh.nested.nodup_scopes id
    exact not_or.mp (mt List.mem_append.mpr (List.nodup_middle.mp hn).notMem)
  have hinner : inner.map k.variablesIn = inner.map h.variablesIn :=
    List.map_congr_left fun z hz => hother (by simp [hscopes, hz]) fun he => hdistinct.1 (he ▸ hz)
  have houter : outer.map k.variablesIn = outer.map h.variablesIn :=
    List.map_congr_left fun z hz => hother (by simp [hscopes, hz]) fun he => hdistinct.2 (he ▸ hz)
  rw [environment, hkscopes, hscopes, List.map_append, List.map_cons, hinner, houter]

end Rebinds

namespace Grows

variable (hg : Grows h k)

include hg

theorem rebinds : Rebinds (fun _ => False) h k := .of_grows hg

theorem environment_eq {held held' : List Link} (hh : Hosted held h) (hk : Hosted held' k)
    (hlt : id < h.cells.size) (hs : ∃ s, k.scope? id = some s) :
    k.environment id = h.environment id := hg.rebinds.environment_eq hh hk hlt hs fun _ _ => not_false

end Grows

end Heap

namespace Session

theorem hosted (steps : List Step) :
    let s := (Session.initial.run steps).2
    Heap.Hosted s.links s.heap := by
  let history : History := .nesting
  exact .of_agree (nested_agree steps).heap

end Session

end ScriptCore
