import ScriptCore.Proofs.Agreement.Bodies
import ScriptCore.Proofs.Object.Replacing
import ScriptCore.Proofs.Scopes.Environments

/-!
# Adding one to a variable

What becomes of an environment when a variable is assigned to is said without heaps first
(`Variable.assign`): the nearest variable of the name gets the value if it may be assigned to; a
constant and a name that nobody has are refused, and nothing changes then. Adding one is reading and
assigning (`Variable.incremented`), where a text gets one digit more. On a heap it happens just so
(`Heap.Hosted.assignVariable`, `Heap.Hosted.increment`): the answer is the one foreseen, the
environment becomes the one foreseen, and no scope outside it is written.
-/

namespace ScriptCore

namespace Operator

def plusOne : Outcome → Outcome
  | .text s => .text (s ++ "1")
  | .value v => .value (if v = .undefined then .undefined else onNumbers .add v (.integer 1))

end Operator

namespace Variable

variable {name : String} {reading : Operator.Outcome} {inner outer : List (List Variable)}

def assigned (name : String) (reading : Operator.Outcome) (own : List Variable) : List Variable :=
  own.map fun x => if x.name = name then ⟨name, true, reading⟩ else x

def nearest? (name : String) (env : List (List Variable)) : Option Variable :=
  env.findSome? fun own => own.find? fun x => x.name = name

/-- The nearest variable of a name is assigned to: the answer, and the environment afterwards. -/
def assign (name : String) (reading : Operator.Outcome) :
    List (List Variable) → Except Error Unit × List (List Variable)
  | [] => (.error (.undefinedVariable name), [])
  | own :: outer =>
    match own.find? fun x => x.name = name with
    | some x =>
      if x.isMutable then (.ok (), assigned name reading own :: outer)
      else (.error (.constAssignment name), own :: outer)
    | none =>
      let (answer, outer) := assign name reading outer
      (answer, own :: outer)

/-- One is added to the nearest variable of a name: the answer, and the environment afterwards. -/
def incremented (name : String) (env : List (List Variable)) :
    Except Error Operator.Outcome × List (List Variable) :=
  let next := Operator.plusOne ((nearest? name env).elim (.value .undefined) Variable.reading)
  let (answer, after) := assign name next env
  (answer.map fun _ => next, after)

theorem nearest?_append (hinner : ∀ own ∈ inner, own.find? (fun x => x.name = name) = none) :
    nearest? name (inner ++ outer) = nearest? name outer := by
  rw [nearest?, List.findSome?_append, List.findSome?_eq_none_iff.mpr hinner, Option.none_or]
  rfl

theorem assign_append (hinner : ∀ own ∈ inner, own.find? (fun x => x.name = name) = none) :
    assign name reading (inner ++ outer) =
      ((assign name reading outer).1, inner ++ (assign name reading outer).2) := by
  induction inner with
  | nil => rfl
  | cons own inner ih =>
    rw [List.cons_append, assign, hinner own List.mem_cons_self,
      ih fun other hm => hinner other (List.mem_cons_of_mem _ hm)]
    rfl

theorem assign_of_not_found {env : List (List Variable)}
    (henv : ∀ own ∈ env, own.find? (fun x => x.name = name) = none) :
    assign name reading env = (.error (.undefinedVariable name), env) := by
  have hall : assign name reading (env ++ []) = _ := assign_append henv
  rwa [List.append_nil, assign, List.append_nil] at hall

theorem value?_of_assign {env : List (List Variable)} {e : Error}
    (he : (assign name reading env).1 = .error e) : e.value? = none := by
  induction env with
  | nil =>
    obtain rfl := Except.error.inj he
    rfl
  | cons own outer ih =>
    rw [assign] at he
    split at he
    · split_ifs at he
      obtain rfl := Except.error.inj he
      rfl
    · exact ih he

end Variable

namespace Heap

variable {h k : Heap} {id x p : NodeId} {s : Scope} {v w : Value} {name : String}
  {links more : List Link}

/-! ## One more than a value -/

/-- **Adding one to a value** yields one more than its reading. -/
theorem binary_one (h : Heap) (v : Value) :
    h.binary .add v (.integer 1) = Operator.plusOne (h.reading v) := by
  have hscalar (hne : v ≠ .undefined) (hid : v.id? = none) (hn : v.numeric?.isNone = false) :
      h.binary .add v (.integer 1) = .value (Operator.onNumbers .add v (.integer 1)) := by
    have hstring : h.isString v = false := by
      rw [isString, kind?, objectOf?, hid]
      rfl
    have hjoins : h.joinsText v (.integer 1) = false := by
      rw [joinsText, hstring, hn]
      rfl
    rw [Heap.binary, if_neg (by simp [hne]), if_neg (by simp [hjoins])]
  cases v with
  | undefined => rfl
  | object id =>
    have hone : h.toText (.integer 1) = "1" := by
      show h.render h.displayDepth [] false (.integer 1) = "1"
      rw [render]
      rfl
    rw [Heap.binary, if_neg (by simp), if_pos ⟨rfl, by simp [joinsText, Value.numeric?]⟩, hone]
    rfl
  | _ => exact hscalar (by simp) rfl rfl

/-- What an operator yields is held, and everything else is as it was. -/
theorem Hosted.binary (hh : Hosted links h) (op : BinaryOp) (hv : h.SeesValue links v)
    (hw : h.SeesValue links w) :
    let run := (HeapM.binary op v w).run h
    Hosted (run.1.links ++ links) run.2 ∧ Grows h run.2 ∧ run.2.reading run.1 = h.binary op v w := by
  let history : History := .nesting
  refine ⟨.of_agree (hh.agree.runBinary op hv hw).2, ?_⟩
  cases hx : h.binary op v w with
  | value a =>
    have hrun : (HeapM.binary op v w).run h = (a, h) := by
      simp only [HeapM.binary, StateT.run_bind, StateT.run_get, pure_bind, hx]
      rfl
    rw [hrun]
    refine ⟨.refl h, ?_⟩
    have ha := Agree.scalar_binary hx
    cases a with
    | object id => cases ha
    | _ => rfl
  | text t =>
    obtain ⟨-, o, hm, ho⟩ := (hh.agree.runNewString t).2
    have hrun : (HeapM.binary op v w).run h =
        (.object ((HeapM.newString t).run h).1, ((HeapM.newString t).run h).2) := by
      simp only [HeapM.binary, StateT.run_bind, StateT.run_get, pure_bind, hx]
      rfl
    rw [hrun]
    have htext : ((HeapM.newString t).run h).2.text? (.object ((HeapM.newString t).run h).1) =
        some t := by
      show (Heap.object? _ _).bind Object.text? = some t
      rw [hm.object, Option.bind_some, Object.text?, ho]
    refine ⟨hm.grows, ?_⟩
    show Operator.Outcome.text _ = _
    rw [toText, htext]
    rfl

/-! ## Assigning -/

/-- A variable of a scope that is no constant is written. -/
theorem Hosted.setBinding (hh : Hosted links h) (hs : h.Sees links (.scope p))
    (hscope : h.scope? p = some s) (hv : v.links ⊆ links) {name : String}
    (hmutable : ∀ old, s.bindings.get? name = some old → old.isMutable = true) :
    let k := h.setBinding p name ⟨v, true⟩
    Hosted links k ∧ Rebinds (· = p) h k ∧ k.cells.size = h.cells.size ∧
      ∀ s', k.scope? p = some s' → s' = { s with bindings := s.bindings.insert name ⟨v, true⟩ } := by
  let history : History := .nesting
  refine ⟨.of_agree (hh.agree.setBinding hs hscope (.held hv) name hmutable).1, ?_⟩
  have hopen := (hh.agree.toMatches.openedBinding hs hscope (.held hv) name true).left
  rw [List.map_append, ← s.references_lost] at hopen
  obtain ⟨-, hframe, hnodes⟩ := Reachable.node?_replaceNode (scope?_eq_some_iff.mp hscope) hopen
  rw [setBinding_of_scope? hscope]
  refine ⟨⟨hframe.size.ge, hframe.displayDepth, fun {id node} _ hn => ?_⟩, hframe.size,
    fun s' hs' => ?_⟩
  · have hnode := (hnodes id (isLive_of_node? hn)).symm.trans hn
    split at hnode
    · next he =>
      exact Or.inr ⟨he, s, _, he ▸ hscope, (Option.some.inj hnode).symm, rfl⟩
    · exact Or.inl hnode
  · have hn := scope?_eq_some_iff.mp hs'
    have hnode := (hnodes p (isLive_of_node? hn)).symm.trans hn
    rw [if_pos rfl] at hnode
    exact (Node.scope.inj (Option.some.inj hnode)).symm

theorem find?_variablesIn (h : Heap) (z : NodeId) (name : String) :
    (h.variablesIn z).find? (fun x => x.name = name) =
      (h.ownBinding? z name).map fun b => ⟨name, b.isMutable, h.reading b.value⟩ := by
  rw [variablesIn, ownBinding?]
  cases h.scope? z with
  | none => rfl
  | some s =>
    rw [Option.bind_some, Fields.get?_eq_find?, List.find?_map, Option.map_map]
    show Option.map h.variableOf (s.bindings.entries.find? fun entry => entry.1 = name) = _
    cases hfound : s.bindings.entries.find? fun entry => entry.1 = name with
    | none => rfl
    | some entry =>
      have hname : entry.1 = name := by simpa using List.find?_some hfound
      subst hname
      rfl

/-- **Assigning to a variable** is seen in its scope, as the reading of what was assigned. -/
theorem Rebinds.variablesIn_insert {held held' : List Link} (hr : Rebinds (· = p) h k)
    (hh : Hosted held h) (hk : Hosted held' k) (hs : h.scope? p = some s)
    (hs' : k.scope? p = some { s with bindings := s.bindings.insert name ⟨v, true⟩ })
    (hb : (s.bindings.get? name).isSome) :
    k.variablesIn p = Variable.assigned name (k.reading v) (h.variablesIn p) := by
  have hkey : name ∈ s.bindings.keys := by
    obtain ⟨b, hb⟩ := Option.isSome_iff_exists.mp hb
    exact List.mem_map_of_mem (Fields.get?_eq_some_iff.mp hb)
  have hentries : (s.bindings.insert name ⟨v, true⟩).entries =
      Fields.overwrite name ⟨v, true⟩ s.bindings.entries := by rw [Fields.insert, dif_pos hkey]
  rw [variablesIn, variablesIn, hs, hs']
  dsimp only
  rw [hentries, Fields.overwrite, Variable.assigned, List.map_map, List.map_map]
  refine List.map_congr_left fun entry hm => ?_
  by_cases hname : entry.1 = name
  · simp [variableOf, hname]
  · have hother : entry.2 ∈ (s.bindings.insert name ⟨v, true⟩).values :=
      Fields.mem_values_iff.mpr ⟨entry.1, Fields.mem_entries_insert.mpr (Or.inr ⟨hname, hm⟩)⟩
    have hread := hr.reading_eq hh hk
      (hh.hasValue_binding hs (Fields.mem_values_iff.mpr ⟨entry.1, hm⟩))
      (hk.hasValue_binding hs' hother)
    simp [variableOf, hname, hread]

/-! ## The nearest variable -/

theorem exists_of_bindingScope? (hb : h.bindingScope? x name = some p) :
    ∃ inner outer b, h.scopes x = inner ++ p :: outer ∧ h.ownBinding? p name = some b ∧
      ∀ own ∈ inner.map h.variablesIn, own.find? (fun x => x.name = name) = none := by
  obtain ⟨hsome, inner, outer, hscopes, hinner⟩ := List.find?_eq_some_iff_append.mp hb
  obtain ⟨b, hb⟩ := Option.isSome_iff_exists.mp hsome
  refine ⟨inner, outer, b, hscopes, hb, fun own hm => ?_⟩
  obtain ⟨z, hz, rfl⟩ := List.mem_map.mp hm
  rw [find?_variablesIn, Option.map_eq_none_iff]
  simpa using hinner z hz

theorem not_found_of_bindingScope?_none (hb : h.bindingScope? x name = none) :
    ∀ own ∈ h.environment x, own.find? (fun x => x.name = name) = none := by
  intro own hm
  obtain ⟨z, hz, rfl⟩ := List.mem_map.mp hm
  rw [find?_variablesIn, Option.map_eq_none_iff]
  simpa using List.find?_eq_none.mp hb z hz

/-- **Reading a variable** finds the nearest one. -/
theorem reading_readVariable (h : Heap) (x : NodeId) (name : String) :
    (h.readVariable x name).map h.reading =
      (Variable.nearest? name (h.environment x)).map Variable.reading := by
  cases hb : h.bindingScope? x name with
  | none =>
    have hnone : Variable.nearest? name (h.environment x) = none :=
      List.findSome?_eq_none_iff.mpr (not_found_of_bindingScope?_none hb)
    rw [hnone, readVariable, hb]
    rfl
  | some p =>
    obtain ⟨inner, outer, b, hscopes, hown, hinner⟩ := exists_of_bindingScope? hb
    rw [environment, hscopes, List.map_append, List.map_cons, Variable.nearest?_append hinner,
      Variable.nearest?, List.findSome?_cons, find?_variablesIn, hown, readVariable, hb,
      Option.bind_some, hown]
    rfl

/-! ## Assigning to the nearest variable -/

theorem run_assignVariable_of_none (hb : h.bindingScope? x name = none) (v : Value) :
    (HeapM.assignVariable x name v).run h = (.error (.undefinedVariable name), h) := by
  rw [HeapM.assignVariable, run_get_bind, hb]
  rfl

theorem run_assignVariable_of_some (hb : h.bindingScope? x name = some p) (v : Value) :
    (HeapM.assignVariable x name v).run h =
      if (h.ownBinding? p name).any Binding.isMutable then
        (.ok (), h.setBinding p name ⟨v, true⟩)
      else (.error (.constAssignment name), h) := by
  rw [HeapM.assignVariable, run_get_bind, hb]
  dsimp only
  split_ifs <;> rfl

theorem assign_of_ownBinding? {inner outer : List NodeId} {b : Binding}
    (hown : h.ownBinding? p name = some b)
    (hinner : ∀ own ∈ inner.map h.variablesIn, own.find? (fun x => x.name = name) = none)
    (reading : Operator.Outcome) :
    Variable.assign name reading ((inner ++ p :: outer).map h.variablesIn) =
      if b.isMutable then
        (.ok (), inner.map h.variablesIn ++
          Variable.assigned name reading (h.variablesIn p) :: outer.map h.variablesIn)
      else (.error (.constAssignment name), (inner ++ p :: outer).map h.variablesIn) := by
  rw [List.map_append, List.map_cons, Variable.assign_append hinner, Variable.assign,
    find?_variablesIn, hown]
  dsimp only [Option.map_some]
  split_ifs <;> rfl

/-- **Assigning to a variable of an environment.** The answer and the environment become what is
foreseen of the environment alone, and no scope outside it is written. -/
theorem Hosted.assignVariable (hh : Hosted links h) (hx : .scope x ∈ links) (hv : v.links ⊆ links)
    (name : String) :
    let run := (HeapM.assignVariable x name v).run h
    Hosted links run.2 ∧ Rebinds (· ∈ h.scopes x) h run.2 ∧
      (run.1, run.2.environment x) =
        Variable.assign name (h.reading v) (h.environment x) := by
  let history : History := .nesting
  cases hb : h.bindingScope? x name with
  | none =>
    rw [run_assignVariable_of_none hb,
      Variable.assign_of_not_found (not_found_of_bindingScope?_none hb)]
    exact ⟨hh, .of_grows (.refl h), rfl⟩
  | some p =>
    obtain ⟨inner, outer, b, hscopes, hown, hinner⟩ := exists_of_bindingScope? hb
    have henv : h.environment x = (inner ++ p :: outer).map h.variablesIn := by
      rw [environment, hscopes]
    rw [run_assignVariable_of_some hb, hown, Option.any_some, henv,
      assign_of_ownBinding? hown hinner]
    by_cases hm : b.isMutable = true
    · rw [if_pos hm, if_pos hm]
      have hp : p ∈ h.scopes x := by simp [hscopes]
      have hlt : x < h.cells.size := lt_size_of_isLive (hh.has _ hx).isLive
      obtain ⟨s, hps⟩ := hh.nested.scope_of_mem_scopes hp
      have hsees : h.Sees links (.scope p) := hh.agree.toMatches.sees_bindingScope? (.held hx) hb
      have hbs : s.bindings.get? name = some b := by rwa [ownBinding?, hps] at hown
      obtain ⟨hk, hr, -, hs'⟩ := hh.setBinding hsees hps hv fun old hold =>
        Option.some.inj (hbs.symm.trans hold) ▸ hm
      have hkx := hk.exists_scope hx
      obtain ⟨s', hks⟩ := hk.nested.scope_of_mem_scopes (hr.scopes_eq hh hk hlt hkx ▸ hp)
      have hread := hr.reading_eq hh hk (hh.hasValue hv) (hk.hasValue hv)
      have hwritten := hr.variablesIn_insert hh hk hps (hs' s' hks ▸ hks) (hbs ▸ rfl)
      refine ⟨hk, hr.mono fun _ he => he ▸ hp, ?_⟩
      rw [hr.environment_of_written hh hk (fun _ => id) hscopes hlt hkx, hwritten, hread]
    · rw [if_neg hm, if_neg hm]
      exact ⟨hh, .of_grows (.refl h), congrArg (Prod.mk _) henv⟩

/-! ## The increment -/

theorem run_increment_of_ok {next : Value} {h₁ h₂ : Heap}
    (hsum : (HeapM.binary .add ((h.readVariable x name).getD .undefined) (.integer 1)).run h =
      (next, h₁)) (hassign : (HeapM.assignVariable x name next).run h₁ = (.ok (), h₂)) :
    (HeapM.increment x name).run h = (.ok next, h₂) := by
  rw [HeapM.increment, run_get_bind]
  dsimp only
  rw [run_bind_of_run hsum, run_bind_of_run hassign]
  rfl

theorem run_increment_of_error {next : Value} {e : Error} {h₁ h₂ : Heap}
    (hsum : (HeapM.binary .add ((h.readVariable x name).getD .undefined) (.integer 1)).run h =
      (next, h₁)) (hassign : (HeapM.assignVariable x name next).run h₁ = (.error e, h₂)) :
    (HeapM.increment x name).run h = (.error e, h₂.letGo (Pending.ofValue next)) := by
  rw [HeapM.increment, run_get_bind]
  dsimp only
  rw [run_bind_of_run hsum, run_bind_of_run hassign]
  rfl

theorem reading_readVariable_getD (h : Heap) (x : NodeId) (name : String) :
    h.reading ((h.readVariable x name).getD .undefined) =
      (Variable.nearest? name (h.environment x)).elim (.value .undefined) Variable.reading := by
  have hread := h.reading_readVariable x name
  cases hv : h.readVariable x name <;> cases hn : Variable.nearest? name (h.environment x) <;>
    simp_all [reading]

/-- **Adding one to a variable.** The answer and the environment become what is foreseen of the
environment alone, and no scope outside it is written. -/
theorem Hosted.increment (hh : Hosted links h) (hx : .scope x ∈ links) (name : String) :
    let run := (HeapM.increment x name).run h
    Hosted (outcomeLinks run.1 ++ links) run.2 ∧ Rebinds (· ∈ h.scopes x) h run.2 ∧
      (run.1.map run.2.reading, run.2.environment x) =
        Variable.incremented name (h.environment x) := by
  let history : History := .nesting
  have hlt : x < h.cells.size := lt_size_of_isLive (hh.has _ hx).isLive
  have hcurrent : h.SeesValue links ((h.readVariable x name).getD .undefined) := by
    cases hr : h.readVariable x name with
    | none => exact .scalar rfl
    | some v => exact hh.agree.sees_readVariable (.held hx) hr
  -- The sum is formed, which leaves the environment as it was.
  obtain ⟨hh₁, hg₁, hnext⟩ := hh.binary .add hcurrent (.scalar (v := .integer 1) rfl)
  rcases hsum : (HeapM.binary .add ((h.readVariable x name).getD .undefined) (.integer 1)).run h
    with ⟨next, h₁⟩
  rw [hsum] at hh₁ hg₁ hnext
  dsimp only at hh₁ hg₁ hnext
  rw [binary_one, reading_readVariable_getD] at hnext
  have hx₁ : Link.scope x ∈ next.links ++ links := List.mem_append_right _ hx
  have henv₁ := hg₁.environment_eq hh hh₁ hlt (hh₁.exists_scope hx₁)
  -- It is assigned.
  obtain ⟨hh₂, hr₂, hassign⟩ := hh₁.assignVariable hx₁ (List.subset_append_left _ _) name
  rcases hrun : (HeapM.assignVariable x name next).run h₁ with ⟨answer, h₂⟩
  rw [hrun] at hh₂ hr₂ hassign
  dsimp only at hh₂ hr₂ hassign
  rw [hg₁.rebinds.scopes_eq hh hh₁ hlt (hh₁.exists_scope hx₁)] at hr₂
  have hr : Rebinds (· ∈ h.scopes x) h h₂ := (Rebinds.of_grows hg₁).trans hr₂
  rw [henv₁, hnext] at hassign
  rw [Variable.incremented, ← hassign]
  cases answer with
  | ok =>
    rw [run_increment_of_ok hsum hrun]
    have hread := hr₂.reading_eq hh₁ hh₂ (hh₁.hasValue (List.subset_append_left _ _))
      (hh₂.hasValue (List.subset_append_left _ _))
    exact ⟨hh₂, hr, congrArg (Prod.mk · _) (congrArg Except.ok (hread.trans hnext))⟩
  | error e =>
    rw [run_increment_of_error hsum hrun]
    obtain ⟨hk, hg⟩ := hh₂.letGoValue
    have hnone : e.value? = none := Variable.value?_of_assign (congrArg Prod.fst hassign).symm
    refine ⟨?_, hr.trans (.of_grows hg), congrArg (Prod.mk _) ?_⟩
    · show Hosted (e.links ++ links) _
      rwa [Error.links_of_none hnone]
    · exact hg.environment_eq hh₂ hk (hlt.trans_le hr.size_le) (hk.exists_scope hx)

end Heap

end ScriptCore
