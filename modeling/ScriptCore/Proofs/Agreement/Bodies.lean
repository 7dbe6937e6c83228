import ScriptCore.Call
import ScriptCore.Proofs.Agreement.Functions

/-!
# Function bodies on heaps that agree

What runs when a function is called: native functions, closures of the host, and scripts in the
scope of the call. What the callable refers to is held meanwhile, as are `this` and the arguments.
The outcome is held afterwards, whether it is a value or an error.
-/

namespace ScriptCore

abbrev outcomeLinks : Except Error Value → List Link := resultLinks Value.links

theorem Error.links_of_value? {e : Error} {v : Value} (he : e.value? = some v) :
    e.links = v.links := by
  rw [Error.links, he, Option.toList_some, valueLinks_singleton]

theorem Error.links_of_none {e : Error} (he : e.value? = none) : e.links = [] := by
  rw [Error.links, he]
  rfl

namespace Heap.Agree

variable [History] {h k : Heap} {links : List Link} {v : Value} {id : NodeId} {f : Callable}
  {e : Error}
  {name : String}

/-! ## Outcomes -/

/-- An error gives up the value it held for a value that is held. -/
theorem runToValue (ha : Agree (e.links ++ links) h k) :
    Together e.toValue e.toValue h k fun v h' k' => Agree (v.links ++ links) h' k' := by
  have hsees : ∀ v, e.value? = some v → h.SeesValue (e.links ++ links) v := by
    intro v hv
    rw [Error.links_of_value? hv]
    exact .held (List.subset_append_left ..)
  have hmessage := ha.message_eq hsees
  unfold Error.toValue
  split
  · next v =>
    rw [Error.links_of_value? (v := v) rfl] at ha
    exact Together.pure ha
  · refine Together.get_bind ?_
    rw [hmessage]
    refine (ha.runNewText _).bind fun v h₁ k₁ ha => ?_
    cases he : e.value? with
    | none =>
      rw [Error.links_of_none he] at ha
      exact Together.pure ha
    | some w =>
      rw [Error.links_of_value? he] at ha
      have hswap : Agree (w.links ++ (v.links ++ links)) h₁ k₁ :=
        ha.perm (List.perm_append_comm_assoc ..)
      exact (runLetGo hswap).bind fun _ _ _ ha => Together.pure ha

variable (ha : Agree links h k)

include ha

theorem runAnswer (hv : h.SeesValue links v) :
    Together (HeapM.answer v) (HeapM.answer v) h k fun r h' k' =>
      Agree (outcomeLinks r ++ links) h' k' :=
  (ha.runHold hv).bind fun _ _ _ ha => Together.pure ha

theorem runRaise (hv : h.SeesValue links v) (he : e.value? = some v) :
    Together (do HeapM.hold v; return (.error e : Except Error Value))
      (do HeapM.hold v; return .error e) h k fun r h' k' =>
        Agree (outcomeLinks r ++ links) h' k' := by
  refine (ha.runHold hv).bind fun _ _ _ ha => Together.pure ?_
  show Agree (e.links ++ links) _ _
  rwa [Error.links_of_value? he]

/-! ## Bodies -/

/-- **Native functions.** -/
theorem runNative (code : NativeCode) (name : String) {this : Value} {args : List Value}
    (hthis : this.links ⊆ links) (hargs : valueLinks args ⊆ links) :
    Together (HeapM.runNative code name this args) (HeapM.runNative code name this args) h k
      fun r h' k' => Agree (outcomeLinks r ++ links) h' k' := by
  have hsee : h.SeesValue links this := .held hthis
  have hall : ∀ v ∈ args, h.SeesValue links v := fun v hv =>
    .held fun l hl => hargs (links_subset_valueLinks hv hl)
  have hfirst : h.SeesValue links (args.headD .undefined) := by
    cases args with
    | nil => exact .scalar rfl
    | cons first rest => exact hall first (List.mem_cons_self ..)
  unfold HeapM.runNative
  cases code with
  | undef | apply => exact Together.pure ha
  | self => exact ha.runAnswer hsee
  | first => exact ha.runAnswer hfirst
  | count =>
    refine Together.pure ?_
    show Agree ((Value.ofNat args.length).links ++ links) h k
    rwa [Value.links_ofNat]
  | array =>
    refine (ha.runNewArray ?_).bind fun id h₁ k₁ ⟨ha, _⟩ => Together.pure ha
    simpa using hargs
  | sum =>
    dsimp only
    split
    · next a b =>
      exact (ha.runBinary .add (hall a (by simp)) (hall b (by simp))).bind
        fun _ _ _ ha => Together.pure ha
    · exact Together.pure ha
  | refuse => exact Together.pure ha
  | throw => exact ha.runRaise hfirst rfl
  | tag =>
    have hsame : k.lookupFieldOf this "tag" = h.lookupFieldOf this "tag" :=
      ha.lookupFieldOf_eq hsee "tag"
    exact Together.look_bind hsame (ha.runAnswer (ha.sees_lookupFieldOf hsee "tag"))
  | store => exact (ha.runAssignFieldOf hsee hfirst _).bind fun _ _ _ ha => Together.pure ha

/-- **Closures of the host.** The callable is held, so what the closure captured is. -/
theorem runClosure {identity : Nat} {state : Closure} {args : List Value}
    (hs : h.Sees links (.object id)) (hf : h.callableOf? id = some f)
    (hbody : f.body = .closure identity state) (hheld : f.links ⊆ links)
    (hargs : valueLinks args ⊆ links) :
    Together (HeapM.runClosure id f identity state args)
      (HeapM.runClosure id f identity state args) h k fun r h' k' =>
        Agree (outcomeLinks r ++ links) h' k' := by
  have hfirst : ∀ {g : Heap}, g.SeesValue links (args.headD .undefined) := by
    intro g
    cases args with
    | nil => exact .scalar rfl
    | cons first rest => exact .held fun l hl => hargs (List.mem_append_left _ hl)
  have hcaptured (v : Value) (hv : state.references = v.references) : h.SeesValue links v := by
    refine .held fun l hl => hheld (List.mem_append_right _ ?_)
    rw [hbody, Body.links]
    refine List.mem_append_right _ ?_
    rw [Body.hiddenReferences, hv]
    exact hl
  unfold HeapM.runClosure
  cases state with
  | const captured => exact ha.runAnswer (hcaptured captured rfl)
  | raise captured => exact ha.runRaise (hcaptured captured rfl) rfl
  | record captured =>
    refine (ha.runAssignFieldOf (hcaptured captured rfl) hfirst _).bind fun _ h₁ k₁ ha => ?_
    exact ha.runAnswer hfirst
  | counter last =>
    -- A counter holds nothing, before and after.
    have hsame : ({ f with body := .closure identity (.counter (last + 1)) } : Callable).links =
        f.links := by
      rw [Callable.links, Callable.links, hbody]
      rfl
    refine Together.modify_bind (Together.pure (ha.setCallable hs hf (fun l hl => ?_) (fun l hl => ?_)
      rfl (by simp [Callable.identity, Body.identity, hbody])))
    · rw [hsame] at hl
      exact .held (hheld hl)
    · exact Or.inr (hheld hl)

/-- A variable that cannot be assigned to leaves nothing held. -/
theorem runIncrement (hs : .scope id ∈ links) (name : String) :
    Together (HeapM.increment id name) (HeapM.increment id name) h k fun r h' k' =>
      Agree (outcomeLinks r ++ links) h' k' := by
  have hsees : h.Sees links (.scope id) := .held hs
  have hcurrent : h.SeesValue links ((h.readVariable id name).getD .undefined) := by
    cases hr : h.readVariable id name with
    | none => exact .scalar rfl
    | some v => exact ha.sees_readVariable hsees hr
  refine Together.get_bind ?_
  rw [ha.readVariable_eq hsees]
  refine (ha.runBinary .add hcurrent (.scalar rfl)).bind fun next h₁ k₁ ha => ?_
  have hscope : h₁.Sees (next.links ++ links) (.scope id) := .held (List.mem_append_right _ hs)
  have hnext : h₁.SeesValue (next.links ++ links) next := .held (List.subset_append_left ..)
  refine (ha.runAssignVariable hscope hnext name).bind fun r h₂ k₂ ⟨ha, hplain⟩ => ?_
  cases r with
  | ok => exact Together.pure ha
  | error e =>
    refine (runLetGo ha).bind fun _ h₃ k₃ ha => Together.pure ?_
    show Agree (e.links ++ links) h₃ k₃
    rwa [Error.links_of_none (hplain e rfl)]

omit ha in
/-- Parameters are defined in a scope that has no constants, and it has none afterwards. -/
theorem runDefineParams (names : List String) : ∀ {args : List Value} {h k : Heap} {s : Scope},
    Agree links h k → .scope id ∈ links → valueLinks args ⊆ links → h.scope? id = some s →
      (∀ name b, s.bindings.get? name = some b → b.isMutable = true) →
        Together (HeapM.defineParams id names args) (HeapM.defineParams id names args) h k
          fun _ h' k' => Agree links h' k' := by
  induction names with
  | nil =>
    intro args h k s ha _ _ _ _
    exact Together.pure ha
  | cons name names ih =>
    intro args h k s ha hs hargs hscope hmutable
    have hfirst : h.SeesValue links (args.headD .undefined) := by
      cases args with
      | nil => exact .scalar rfl
      | cons first rest => exact .held fun l hl => hargs (List.mem_append_left _ hl)
    have hdefine : Together (HeapM.define id name (args.headD .undefined) true)
        (HeapM.define id name (args.headD .undefined) true) h k fun _ h' k' =>
          Agree links h' k' ∧ h'.scope? id = some { s with
            bindings := s.bindings.insert name ⟨args.headD .undefined, true⟩ } :=
      Together.of_modify ((ha.setBinding (.held hs) hscope hfirst name (hmutable name)).imp_right
        fun hset => hset hs)
    refine hdefine.bind fun _ h₁ k₁ ⟨ha, hscope⟩ => ?_
    refine ih ha hs (fun l hl => hargs (valueLinks_subset (List.tail_subset args) hl)) hscope
      fun other b hb => ?_
    by_cases he : other = name
    · subst he
      rw [Fields.get?_insert_self, Option.some.injEq] at hb
      exact hb ▸ rfl
    · rw [Fields.get?_insert_ne _ _ he] at hb
      exact hmutable other b hb

/-- **Scripts**, in the scope made for the call. -/
theorem runScript {scope : NodeId} (code : ScriptCode) {this : Value}
    (hs : h.Sees links (.object id)) (hscope : .scope scope ∈ links) (hthis : this.links ⊆ links) :
    Together (HeapM.runScript id f code scope this) (HeapM.runScript id f code scope this) h k
      fun r h' k' => Agree (outcomeLinks r ++ links) h' k' := by
  have hsees : h.Sees links (.scope scope) := .held hscope
  have hread (name : String) : h.SeesValue links ((h.readVariable scope name).getD .undefined) := by
    cases hr : h.readVariable scope name with
    | none => exact .scalar rfl
    | some v => exact ha.sees_readVariable hsees hr
  unfold HeapM.runScript
  cases code with
  | sum =>
    refine Together.get_bind ?_
    dsimp only
    rw [ha.readVariable_eq hsees, ha.readVariable_eq hsees]
    exact (ha.runBinary .add (hread "a") (hread "b")).bind fun _ _ _ ha => Together.pure ha
  | self => exact ha.runAnswer (.held hthis)
  | name => exact (ha.runNewText f.name).bind fun _ _ _ ha => Together.pure ha
  | get name =>
    refine Together.get_bind ?_
    dsimp only
    rw [ha.readVariable_eq hsees]
    exact ha.runAnswer (hread name)
  | increment name => exact ha.runIncrement hscope name
  | foreign => exact ha.runRaise hs.value rfl

/-- **Interpreted functions.** The scope of the call is let go when it is over. -/
theorem runInterpreted {closure : NodeId} (code : ScriptCode) {this : Value} {args : List Value}
    (hs : .object id ∈ links) (hclosure : .scope closure ∈ links) (hthis : this.links ⊆ links)
    (hargs : valueLinks args ⊆ links) :
    Together (HeapM.runInterpreted id f code closure this args)
      (HeapM.runInterpreted id f code closure this args) h k fun r h' k' =>
        Agree (outcomeLinks r ++ links) h' k' := by
  have houter : ∀ x, some closure = some x → h.Sees links (.scope x) := fun x hx =>
    .held (Option.some.inj hx ▸ hclosure)
  refine (ha.runNewScope houter).bind fun scope h₁ k₁ ⟨ha, hscope⟩ => ?_
  have hself : Link.scope scope ∈ Link.scope scope :: links := List.mem_cons_self ..
  have hnone (name : String) (b : Binding) :
      (Scope.plain (some closure)).bindings.get? name = some b → b.isMutable = true := nofun
  refine (runDefineParams f.params ha hself (fun l hl => List.mem_cons_of_mem _ (hargs hl)) hscope
    hnone).bind fun _ h₂ k₂ ha => ?_
  refine (ha.runScript code (.held (List.mem_cons_of_mem _ hs)) hself fun l hl =>
    List.mem_cons_of_mem _ (hthis hl)).bind fun outcome h₃ k₃ ha => ?_
  refine Together.modify_bind (Together.pure ?_)
  have hswap : Agree ([.scope scope] ++ (outcomeLinks outcome ++ links)) h₃ k₃ :=
    ha.perm List.perm_middle
  exact hswap.letGo rfl rfl

end Heap.Agree

end ScriptCore
