import ScriptCore.Function
import ScriptCore.Json.Bridge
import ScriptCore.Operator
import ScriptCore.Proofs.Json.Representing
import ScriptCore.Proofs.Json.Sorted
import ScriptCore.Proofs.Object.Replacing
import ScriptCore.Template

/-!
# Functions and JSON on heaps that agree

A function comes with an object of its own, and the two are linked both ways before the second is
handed over. A JSON value becomes a tree of fresh objects, each of which takes its members over.
-/

namespace ScriptCore

def Error.links (e : Error) : List Link := valueLinks e.value?.toList

def resultLinks {α : Type} (links : α → List Link) : Except Error α → List Link
  | .ok a => links a
  | .error e => e.links

/-- The heap has grown, and there is a new function, with a new object under `prototype`. -/
structure Heap.MadeFunction (h k : Heap) (id : NodeId) (f : Callable) : Prop where
  grows : Grows h k
  fresh : h.cells.size ≤ id
  callable : k.callableOf? id = some f
  prototype : ∃ p, h.cells.size ≤ p ∧ k.ownPlainField? id "prototype" = some (.object p)

namespace Heap

variable {h k : Heap} {links : List Link} {id : NodeId} {o : Object} {f g : Callable}

theorem exotic_of_callableOf? (hf : h.callableOf? id = some f) :
    ∃ o, h.object? id = some o ∧ o.exotic = .function f := by
  obtain ⟨o, ho, hf⟩ := Option.bind_eq_some_iff.mp hf
  refine ⟨o, ho, ?_⟩
  simp only [Object.callable?] at hf
  split at hf
  · next hx => rw [hx, Option.some.inj hf]
  · cases hf

theorem setCallable_of_object? (ho : h.object? id = some o) (g : Callable) :
    h.setCallable id g = h.setObject id { o with exotic := .function g } := by
  rw [setCallable, ho]

theorem Matches.setCallable (ha : Matches links h k) (hs : h.Sees links (.object id))
    (ho : h.object? id = some o) (he : o.exotic = .function f)
    (hnew : ∀ l ∈ g.links, h.Sees links l) (hlost : ∀ l ∈ f.links, l ∈ g.links ∨ l ∈ links) :
    Matches links (h.setObject id { o with exotic := .function g })
      (k.setObject id { o with exotic := .function g }) := by
  refine ha.setObject g.links hs ho (fun l hl => Object.links_exotic hl) hnew (fun l hl => ?_) rfl
  rcases Object.links_exotic (o := { o with exotic := .function g }) (e := o.exotic) hl
    with hl | hl
  · rw [he] at hl
    refine (hlost l hl).imp_left fun hl => ?_
    exact Object.mem_links_iff.mpr (Or.inr (Or.inr (Or.inr (Or.inr (Or.inr hl)))))
  · exact Or.inl hl

end Heap

namespace Heap.Agree

variable [History] {h k : Heap} {links : List Link} {v : Value} {id : NodeId} {f : Callable}
  (ha : Agree links h k)

omit [History] in
theorem kept_of_object? {o : Object} {l : Link} (ho : h.object? id = some o) (hl : l ∈ o.links) :
    Kept h (.object id :: links) l :=
  Or.inr ⟨.object id, .object o, .held (List.mem_cons_self ..), object?_eq_some_iff.mp ho, hl⟩

include ha

/-! ## Functions -/

theorem runInsertField_made {g : Heap} {o : Object} (hm : Made g h id o) (hid : .object id ∈ links)
    (hv : v.links ⊆ links) (key : String) :
    Together (HeapM.insertField id key v) (HeapM.insertField id key v) h k fun _ h' k' =>
      Agree links h' k' ∧ Made g h' id { o with fields := o.fields.insert key v } := by
  obtain ⟨hsame, hagree, -⟩ := ha.runInsertField (.held hid) (.held hv) key
  have hvalue (x : NodeId) (hx : v = .object x) : ∃ o, h.object? x = some o := by
    subst hx
    exact ha.exists_object (.held (hv (List.mem_singleton.mpr rfl)))
  have hlive := hagree.left.isLive (List.mem_map_of_mem hid)
  exact ⟨hsame, hagree, hm.grows.insertField hm.fresh ha.left hm.object hvalue key, hm.fresh,
    ha.left.object?_insertField hm.object hvalue key hlive⟩

/-- **A new function.** What its callable refers to is held by the caller. -/
theorem runNewFunction (hf : f.links ⊆ links) :
    Together (HeapM.newFunction f) (HeapM.newFunction f) h k fun id h' k' =>
      Agree (.object id :: links) h' k' ∧ MadeFunction h h' id f := by
  refine ha.runRealm.bind fun r h₁ k₁ hq => ?_
  obtain ⟨ha, hr, hg₁⟩ := hq
  have hcallable (l : Link) (hl : l ∈ f.links) : h₁.Sees links l := .held (hf hl)
  refine (ha.runAllocObject (sees_links_exotic (e := .function f)
    (hr _ (by simp [Realm.references])) hcallable) rfl).bind fun id h₂ k₂ hq => ?_
  obtain ⟨ha, hm₂, _⟩ := hq
  refine ha.runNewObject.bind fun prototype h₃ k₃ hq => ?_
  obtain ⟨ha, p, hm₃⟩ := hq
  have hid : .object id ∈ .object prototype :: .object id :: links := by simp
  have hprototype : .object prototype ∈ .object prototype :: .object id :: links := by simp
  have hheld {x : NodeId} (hx : .object x ∈ .object prototype :: .object id :: links) :
      (Value.object x).links ⊆ .object prototype :: .object id :: links := fun l hl =>
    List.mem_singleton.mp hl ▸ hx
  rw [HeapM.assignField_eq_insertField prototype _ (by decide) (by decide),
    HeapM.assignField_eq_insertField id _ (by decide) (by decide)]
  refine (ha.runInsertField_made hm₃ hprototype (hheld hid) _).bind fun _ h₄ k₄ hq => ?_
  obtain ⟨ha, hm₄⟩ := hq
  have hm := (hg₁.made hm₂).grow hm₄.grows (ha.left.isLive (List.mem_map_of_mem hid))
  refine (ha.runInsertField_made hm hid (hheld hprototype) _).bind fun _ h₅ k₅ hq => ?_
  obtain ⟨ha, hm₅⟩ := hq
  -- The prototype is stored in the function by now, which is held.
  have hstored := Fields.get?_insert_self (Object.plain "Function" none).fields "prototype"
    (Value.object prototype)
  have hkept : ∀ l ∈ valueLinks [.object prototype], Kept h₅ (.object id :: links) l := by
    intro l hl
    obtain rfl : l = .object prototype := by simpa [valueLinks] using hl
    refine kept_of_object? hm₅.object (Object.mem_links_iff.mpr
      (Or.inr (Or.inl ⟨_, Fields.mem_values_of_get? hstored, ?_⟩)))
    exact List.mem_singleton.mpr rfl
  refine Together.bind (runHandOver ha hkept) fun _ h₆ k₆ hq => Together.pure ?_
  obtain ⟨ha, hg⟩ := hq
  have hm₆ := hm₅.grow hg (ha.left.isLive List.mem_cons_self)
  refine ⟨ha, hm₆.grows, hm₆.fresh, ?_, prototype, ?_, ?_⟩
  · rw [callableOf?, hm₆.object]
    rfl
  · exact ((hg₁.made hm₂).grows.size_le).trans hm₃.fresh
  · rw [ownPlainField?, hm₆.object]
    exact hstored

omit [History] ha in
theorem sees_callableOf? (hs : h.Sees links (.object id)) (hf : h.callableOf? id = some f) :
    ∀ l ∈ f.links, h.Sees links l := by
  obtain ⟨o, ho, he⟩ := exotic_of_callableOf? hf
  exact fun l hl => hs.callable ho he hl

theorem setCallable {g : Callable} (hs : h.Sees links (.object id))
    (hf : h.callableOf? id = some f) (hnew : ∀ l ∈ g.links, h.Sees links l)
    (hlost : ∀ l ∈ f.links, l ∈ g.links ∨ l ∈ links) (hbound : g.boundThis = f.boundThis)
    (hidentity : g.identity = f.identity) :
    Agree links (h.setCallable id g) (k.setCallable id g) := by
  obtain ⟨o, ho, he⟩ := exotic_of_callableOf? hf
  have hsteady : (Node.object o).Steady (.object { o with exotic := .function g }) :=
    .object rfl (by simp [Object.text?, he]) (by simp [Node.boundThis?, Object.callable?, he, hbound])
      (by simp [Node.identity?, Object.callable?, he, hidentity])
  rw [setCallable_of_object? ho, setCallable_of_object? ((ha.object?_eq hs).trans ho)]
  exact ha.move (ha.toMatches.setCallable hs ho he hnew hlost)
    (.write (object?_eq_some_iff.mp ho) hsteady)
    (.write (ha.node?_right (object?_eq_some_iff.mp ho) hs) hsteady)

/-- A function that is not bound yet is bound, if that is allowed. -/
theorem runBindThis (hs : h.Sees links (.object id)) (hv : h.SeesValue links v)
    (hbind : ∀ {h k : Heap}, Bind id v h k → History.Admits h → History.Admits k) :
    Together (HeapM.bindThis id v) (HeapM.bindThis id v) h k fun r h' k' =>
      Agree (resultLinks (fun _ => []) r ++ links) h' k' := by
  refine Together.get_bind ?_
  rw [ha.callableOf?_eq hs]
  cases hf : h.callableOf? id with
  | none =>
    refine (ha.runHold hs.value).bind fun _ _ _ ha => Together.pure ?_
    simpa [resultLinks, Error.links, Error.value?, valueLinks] using ha
  | some f =>
    have hsees := sees_callableOf? hs hf
    dsimp only
    split
    · next hb =>
      have hnone : f.boundThis = none := Option.isNone_iff_eq_none.mp hb
      obtain ⟨o, ho, he⟩ := exotic_of_callableOf? hf
      have ho' : k.object? id = some o := (ha.object?_eq hs).trans ho
      have hmatch := ha.toMatches.setCallable (g := { f with boundThis := some v }) hs ho he
        (fun l hl => ?_) fun l hl => ?_
      · refine Together.set_bind (Together.pure ?_)
        rw [setCallable_of_object? ho, setCallable_of_object? ho']
        exact ⟨hmatch, hbind (.intro ho he hnone) ha.leftAdmits,
          hbind (.intro ho' he hnone) ha.rightAdmits⟩
      · rcases List.mem_append.mp hl with hl | hl
        · exact hv l (by simpa using hl)
        · exact hsees l (List.mem_append_right _ hl)
      · rw [Callable.links, hnone] at hl
        exact Or.inl (List.mem_append_right _ hl)
    · exact Together.pure ha

/-- What the function refers to is held while its copy is made. -/
theorem runCopyCompiled {scope : NodeId} (hs : h.Sees links (.object id))
    (hscope : .scope scope ∈ links) :
    Together (HeapM.copyCompiled id scope) (HeapM.copyCompiled id scope) h k fun r h' k' =>
      Agree (resultLinks (fun copy => [.object copy]) r ++ links) h' k' := by
  have hrefuse (e : Error) (he : e.value? = some (.object id)) :
      Together (do HeapM.hold (.object id); return (.error e : Except Error NodeId))
        (do HeapM.hold (.object id); return .error e) h k fun r h' k' =>
          Agree (resultLinks (fun copy => [.object copy]) r ++ links) h' k' := by
    refine (ha.runHold hs.value).bind fun _ _ _ ha => Together.pure ?_
    simpa [resultLinks, Error.links, he, valueLinks] using ha
  refine Together.get_bind ?_
  rw [ha.callableOf?_eq hs]
  cases hf : h.callableOf? id with
  | none => exact hrefuse _ rfl
  | some f =>
    have hsees := sees_callableOf? hs hf
    dsimp only
    split
    · next bytecode _ _ =>
      refine (ha.runHoldCallable hsees).bind fun _ h₁ k₁ hq => ?_
      obtain ⟨ha, _⟩ := hq
      refine ((ha.runNewFunction fun l hl => ?_).mono fun _ _ _ hq => hq.1).bind
        fun copy h₂ k₂ ha => ?_
      · rcases List.mem_append.mp hl with hl | hl
        · exact List.mem_append_left _ (List.mem_append_left _ hl)
        · obtain rfl : l = .scope scope := by
            simpa [Body.links, Body.tracedReferences, Body.hiddenReferences] using hl
          exact List.mem_append_right _ hscope
      · have hswap : Agree (f.links ++ (.object copy :: links)) h₂ k₂ :=
          ha.perm List.perm_middle.symm
        exact (runLetGoCallable hswap).bind fun _ _ _ ha => Together.pure ha
    · exact hrefuse _ rfl

theorem runNewFromTemplate (t : Template) :
    Together (HeapM.newFromTemplate t) (HeapM.newFromTemplate t) h k fun id h' k' =>
      Agree (.object id :: links) h' k' := by
  have hnone : t.callable.links = [] := rfl
  exact (ha.runNewFunction (hnone ▸ List.nil_subset _)).mono fun _ _ _ hq => hq.1

/-! ## Operators -/

omit [History] ha in
theorem scalar_onNumbers (op : BinaryOp) (v w : Value) :
    (Operator.onNumbers op v w).id? = none := by
  have harith (m : Int64 → Int64 → Value) (d : Double → Double → Double)
      (hm : ∀ x y, (m x y).id? = none) : (Operator.arithmetic m d v w).id? = none := by
    rw [Operator.arithmetic]
    split
    · exact hm _ _
    · rfl
    · rfl
  have hfloat (d : Double → Double → Double) : (Operator.floating d v w).id? = none := by
    rw [Operator.floating]
    split <;> rfl
  have hbits (m : Int64 → Int64 → Int64) : (Operator.bitwise m v w).id? = none := by
    rw [Operator.bitwise]
    split <;> rfl
  have hrem (x y : Int64) : (Operator.remainder x y).id? = none := by
    rw [Operator.remainder]
    split <;> rfl
  cases op with
  | add | sub | mul => exact harith _ _ fun _ _ => rfl
  | rem => exact harith _ _ hrem
  | div | pow => exact hfloat _
  | _ => exact hbits _

omit [History] ha in
theorem scalar_binary {op : BinaryOp} {v w x : Value} (hx : h.binary op v w = .value x) :
    x.id? = none := by
  rw [Heap.binary] at hx
  split at hx
  · obtain rfl := Operator.Outcome.value.inj hx
    rfl
  · split at hx
    · cases hx
    · obtain rfl := Operator.Outcome.value.inj hx
      exact scalar_onNumbers op v w

omit [History] ha in
theorem scalar_unary (op : UnaryOp) (v : Value) : (Operator.unary op v).id? = none := by
  unfold Operator.unary
  split <;> rfl

theorem runBinary (op : BinaryOp) {w : Value} (hv : h.SeesValue links v)
    (hw : h.SeesValue links w) :
    Together (HeapM.binary op v w) (HeapM.binary op v w) h k fun x h' k' =>
      Agree (x.links ++ links) h' k' := by
  refine Together.get_bind ?_
  rw [ha.binary_eq op hv hw]
  cases hx : h.binary op v w with
  | value x =>
    refine Together.pure ?_
    rwa [Value.links_scalar (scalar_binary hx)]
  | text s => exact ha.runNewText s

/-! ## JSON -/

omit ha

/-- A JSON value is made into the same objects on both sides, and they represent it. -/
def MakesJson (json : Json) : Prop := ∀ ⦃links : List Link⦄ ⦃h k : Heap⦄, Agree links h k →
  Together (HeapM.ofJson json) (HeapM.ofJson json) h k fun v h' k' =>
    Agree (v.links ++ links) h' k' ∧ Grows h h' ∧ h'.Represents h'.cells.size v json

theorem represents_grows {n : NodeId} {json : Json} (hr : h.Represents n v json) {h' : Heap}
    (hg : Grows h h') (hn : n ≤ h.cells.size) {k' : Heap} (ha : Agree links h' k')
    (hl : v.links ⊆ links) : h'.Represents n v json := by
  refine hr.grows hg hn ha.left.sound.counted fun id he => ?_
  subst he
  exact ha.left.isLive (List.mem_map_of_mem (hl (List.mem_singleton.mpr rfl)))

theorem represents_items {n : NodeId} {vs : List Value} {items : List Json}
    (hr : List.Forall₂ (h.Represents n) vs items) {h' : Heap} (hg : Grows h h')
    (hn : n ≤ h.cells.size) {k' : Heap} (ha : Agree links h' k') (hl : valueLinks vs ⊆ links) :
    List.Forall₂ (h'.Represents n) vs items := by
  obtain ⟨hlength, hzip⟩ := List.forall₂_iff_zip.mp hr
  refine List.forall₂_iff_zip.mpr ⟨hlength, fun {v _} hm => ?_⟩
  have hv : v ∈ vs := (List.of_mem_zip hm).1
  exact represents_grows (hzip hm) hg hn ha fun _ hm => hl (links_subset_valueLinks hv hm)

theorem represents_entries {n : NodeId} {made : List (String × Value)}
    {entries : List (String × Json)} (hr : List.Forall₂ (h.RepresentsEntry n) made entries)
    {h' : Heap} (hg : Grows h h') (hn : n ≤ h.cells.size) {k' : Heap} (ha : Agree links h' k')
    (hl : valueLinks (made.map Prod.snd) ⊆ links) :
    List.Forall₂ (h'.RepresentsEntry n) made entries := by
  obtain ⟨hlength, hzip⟩ := List.forall₂_iff_zip.mp hr
  refine List.forall₂_iff_zip.mpr ⟨hlength, fun {a _} hm => ⟨(hzip hm).1, ?_⟩⟩
  have hv : a.2 ∈ made.map Prod.snd := List.mem_map_of_mem (List.of_mem_zip hm).1
  exact represents_grows (hzip hm).2 hg hn ha fun _ hm => hl (links_subset_valueLinks hv hm)

theorem represents_array {h' k' : Heap} {o : Object} {elements : Array Value} {items : List Json}
    (hr : List.Forall₂ (h.Represents h.cells.size) elements.toList items) (hm : Made h h' id o)
    (hx : o.exotic = .array elements) (ha : Agree links h' k')
    (hl : valueLinks elements.toList ⊆ links) :
    h'.Represents h'.cells.size (.object id) (.array items) := by
  have hitems := represents_items hr hm.grows le_rfl ha hl
  exact .of_items hm.lt_size hm.object hx (hitems.imp fun _ _ hr => hr.mono hm.fresh)

theorem represents_object {h' k' : Heap} {o : Object} {entries : List (String × Json)}
    (hr : List.Forall₂ (h.RepresentsEntry h.cells.size) o.fields.entries entries)
    (hm : Made h h' id o) (hx : o.exotic = .ordinary) (ha : Agree links h' k')
    (hl : valueLinks o.fields.values ⊆ links) :
    h'.Represents h'.cells.size (.object id) (.object entries) := by
  have hentries := represents_entries hr hm.grows le_rfl ha hl
  refine .of_entries hm.lt_size hm.object hx (hentries.imp fun _ _ hr => ?_)
  exact ⟨hr.1, hr.2.mono hm.fresh⟩

theorem represents_made {json : Json} (hr : h.Represents h.cells.size (.object id) json) {h' : Heap}
    (hg : Grows h h') {k' : Heap} (ha : Agree (.object id :: links) h' k') :
    h'.Represents h'.cells.size (.object id) json := by
  have hl : (Value.object id).links ⊆ .object id :: links := fun l hm =>
    List.mem_cons.mpr (Or.inl (List.mem_singleton.mp hm))
  exact (represents_grows hr hg le_rfl ha hl).mono hg.size_le

/-- Items are made one by one, each of them held. -/
theorem runOfJsonItems (items : List Json) (hi : ∀ item ∈ items, MakesJson item) :
    ∀ ⦃links : List Link⦄ ⦃h k : Heap⦄, Agree links h k →
      Together (HeapM.ofJsonItems items) (HeapM.ofJsonItems items) h k fun vs h' k' =>
        Agree (valueLinks vs ++ links) h' k' ∧ Grows h h' ∧
          List.Forall₂ (h'.Represents h'.cells.size) vs items := by
  induction items with
  | nil =>
    intro links h k ha
    exact Together.pure ⟨ha, .refl h, .nil⟩
  | cons item items ih =>
    intro links h k ha
    have hrest := ih fun other hm => hi other (List.mem_cons_of_mem _ hm)
    refine (hi item (List.mem_cons_self ..) ha).bind fun v h₁ k₁ hq => ?_
    obtain ⟨ha, hg₁, hr₁⟩ := hq
    refine (hrest ha).bind fun vs h₂ k₂ hq => Together.pure ?_
    obtain ⟨ha, hg₂, hr₂⟩ := hq
    refine ⟨ha.perm ?_, hg₁.trans hg₂, .cons ?_ hr₂⟩
    · rw [valueLinks_cons, List.append_assoc]
      exact List.perm_append_comm_assoc ..
    · have hv : v.links ⊆ valueLinks vs ++ (v.links ++ links) := fun l hl =>
        List.mem_append_right _ (List.mem_append_left _ hl)
      exact (represents_grows hr₁ hg₂ le_rfl ha hv).mono hg₂.size_le

/-- Entries keep their names. -/
theorem runOfJsonEntries (entries : List (String × Json))
    (he : ∀ entry ∈ entries, MakesJson entry.2) :
    ∀ ⦃links : List Link⦄ ⦃h k : Heap⦄, Agree links h k →
      Together (HeapM.ofJsonEntries entries) (HeapM.ofJsonEntries entries) h k fun made h' k' =>
        Agree (valueLinks (made.map Prod.snd) ++ links) h' k' ∧ Grows h h' ∧
          List.Forall₂ (h'.RepresentsEntry h'.cells.size) made entries ∧
            made.map Prod.fst = entries.map Prod.fst := by
  induction entries with
  | nil =>
    intro links h k ha
    exact Together.pure ⟨ha, .refl h, .nil, rfl⟩
  | cons entry entries ih =>
    intro links h k ha
    have hrest := ih fun other hm => he other (List.mem_cons_of_mem _ hm)
    refine (he entry (List.mem_cons_self ..) ha).bind fun v h₁ k₁ hq => ?_
    obtain ⟨ha, hg₁, hr₁⟩ := hq
    refine (hrest ha).bind fun made h₂ k₂ hq => Together.pure ?_
    obtain ⟨ha, hg₂, hr₂, hnames⟩ := hq
    refine ⟨ha.perm ?_, hg₁.trans hg₂, .cons ⟨rfl, ?_⟩ hr₂, ?_⟩
    · rw [List.map_cons, valueLinks_cons, List.append_assoc]
      exact List.perm_append_comm_assoc ..
    · have hv : v.links ⊆ valueLinks (made.map Prod.snd) ++ (v.links ++ links) := fun l hl =>
        List.mem_append_right _ (List.mem_append_left _ hl)
      exact (represents_grows hr₁ hg₂ le_rfl ha hv).mono hg₂.size_le
    · rw [List.map_cons, List.map_cons, hnames]

/-- **The fields of a fresh object are set all at once.** They are stored in it then. -/
theorem fillFields {entries : List (String × Value)} {o : Object}
    (ha : Agree (.object id :: links) h k) (ho : h.object? id = some o) (hnew : o.fields = .empty)
    (hl : valueLinks (entries.map Prod.snd) ⊆ links) (hd : (entries.map Prod.fst).Nodup) :
    Agree (.object id :: links) (h.setObject id { o with fields := .ofList entries })
        (k.setObject id { o with fields := .ofList entries }) ∧
      valueLinks (entries.map Prod.snd) ⊆ ({ o with fields := .ofList entries } : Object).links := by
  have hs : h.Sees (.object id :: links) (.object id) := .held (List.mem_cons_self ..)
  have hvalues : (Fields.ofList entries).values = entries.map Prod.snd := Fields.values_ofList hd
  refine ⟨ha.setObject (valueLinks (entries.map Prod.snd)) hs ho (fun l hm => ?_)
    (fun l hm => .held (List.mem_cons_of_mem _ (hl hm))) (fun l hm => Or.inl ?_) rfl
    (.of_exotic rfl rfl), fun l hm => ?_⟩
  · exact Object.links_fields (fun l hl => Or.inl (hvalues ▸ hl)) hm
  · -- The object had no fields before.
    have hold : l ∈ [] ∨ l ∈ ({ o with fields := .ofList entries } : Object).links := by
      refine Object.links_fields (o := { o with fields := .ofList entries }) (fun l hl => ?_) hm
      rw [hnew] at hl
      exact absurd hl List.not_mem_nil
    exact hold.resolve_left List.not_mem_nil
  · obtain ⟨v, hv, hlv⟩ := mem_valueLinks.mp hm
    exact Object.mem_links_iff.mpr (Or.inr (Or.inl ⟨v, hvalues ▸ hv, hlv⟩))

theorem makesJson_array {items : List Json} (hi : ∀ item ∈ items, MakesJson item) :
    MakesJson (.array items) := by
  intro links h k ha
  refine (runOfJsonItems items hi ha).bind fun vs h₁ k₁ hq => ?_
  obtain ⟨ha, hg₁, hr₁⟩ := hq
  refine (ha.runNewArray (List.subset_append_left ..)).bind fun id h₂ k₂ hq => ?_
  obtain ⟨ha, o, hm, hx⟩ := hq
  have hswap : Agree (valueLinks vs ++ (.object id :: links)) h₂ k₂ :=
    ha.perm List.perm_middle.symm
  have hr₂ := represents_array hr₁ hm hx hswap (List.subset_append_left ..)
  have hkept : ∀ l ∈ valueLinks vs, Kept h₂ (.object id :: links) l := fun l hl =>
    kept_of_object? hm.object (mem_links_of_element hx hl)
  exact (runHandOver hswap hkept).bind fun _ _ _ hq => Together.pure
    ⟨hq.1, (hg₁.made hm).grows.trans hq.2, represents_made hr₂ hq.2 hq.1⟩

/-- A new object gets all its fields at once, whatever their names, and takes them over. -/
theorem makesJson_object {entries : List (String × Json)} (hasc : Json.Ascending entries)
    (he : ∀ entry ∈ entries, MakesJson entry.2) : MakesJson (.object entries) := by
  intro links h k ha
  refine (runOfJsonEntries entries he ha).bind fun made h₁ k₁ hq => ?_
  obtain ⟨ha, hg₁, hr₁, hnames⟩ := hq
  refine ha.runNewObject.bind fun id h₂ k₂ hq => ?_
  obtain ⟨ha, p, hm⟩ := hq
  have hk : k₂.object? id = some (.plain "Object" p) :=
    (ha.object?_eq (.held (List.mem_cons_self ..))).trans hm.object
  have hd : (made.map Prod.fst).Nodup := hnames ▸ hasc.nodup
  obtain ⟨hfilled, hstored⟩ := fillFields ha hm.object rfl (List.subset_append_left ..) hd
  refine Together.modify_bind ?_
  rw [hm.object, hk]
  have hm := hm.setObject { Object.plain "Object" p with fields := .ofList made }
  have hswap := hfilled.perm List.perm_middle.symm
  have hr₂ := represents_object ((Fields.entries_ofList hd).symm ▸ hr₁) hm rfl hswap
    ((Fields.values_ofList hd).symm ▸ List.subset_append_left ..)
  have hkept : ∀ l ∈ valueLinks (made.map Prod.snd), Kept _ (.object id :: links) l :=
    fun l hl => kept_of_object? hm.object (hstored hl)
  exact (runHandOver hswap hkept).bind fun _ _ _ hq => Together.pure
    ⟨hq.1, (hg₁.made hm).grows.trans hq.2, represents_made hr₂ hq.2 hq.1⟩

/-- **A sorted JSON value makes the same objects on both sides.** They represent it. -/
theorem runOfJson {json : Json} (hj : json.Sorted) : MakesJson json := by
  have hscalar {json : Json} {v : Value} (hv : v.links = [])
      (hr : ∀ h : Heap, h.Represents h.cells.size v json)
      (hmake : HeapM.ofJson json = Pure.pure v) : MakesJson json := by
    intro links h k ha
    rw [hmake]
    exact Together.pure ⟨hv.symm ▸ ha, .refl h, hr h⟩
  induction hj with
  | null => exact hscalar rfl (fun _ => .null) rfl
  | boolean b => exact hscalar rfl (fun _ => .boolean b) rfl
  | integer n => exact hscalar rfl (fun _ => .integer n) rfl
  | double d => exact hscalar rfl (fun _ => .double d) rfl
  | string s =>
    intro links h k ha
    refine (ha.runNewString s).bind fun id h₁ k₁ hq => Together.pure ?_
    obtain ⟨ha, o, hm, hx⟩ := hq
    exact ⟨ha, hm.grows, .string hm.lt_size hm.object hx⟩
  | array _ ih => exact makesJson_array ih
  | object hasc _ ih => exact makesJson_object hasc ih

end Heap.Agree

end ScriptCore
