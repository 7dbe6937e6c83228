import ScriptCore.Object.Accessor
import ScriptCore.Object.Attachment
import ScriptCore.Proofs.Agreement.Runs

/-!
# Operations on objects, on heaps that agree

Creating objects, and writing to their fields, prototypes, elements, accessors and payloads, keeps
two heaps in agreement. Each write adds the links of what is written and loses those of what was
there before.
-/

namespace ScriptCore

theorem Heap.object?_addHandles (h : Heap) (ids : List NodeId) (id : NodeId) :
    (h.addHandles ids).object? id = h.object? id := by
  rw [object?, object?, node?_addHandles]

namespace Elements

/-- What it takes to put others in the place of elements: they refer to what the old ones or something
more refers to, and what the old ones refer to is lost or kept. -/
structure Exchange (old others : Array Value) (lost : List Value) (more : List Link) : Prop where
  gained : ∀ l ∈ valueLinks others.toList, l ∈ more ∨ l ∈ valueLinks old.toList
  gone : valueLinks lost ⊆ valueLinks old.toList
  kept : ∀ l ∈ valueLinks old.toList, l ∈ valueLinks lost ∨ l ∈ valueLinks others.toList

theorem valueLinks_resize (elements : Array Value) (length : Nat) :
    valueLinks (resize elements length).toList = valueLinks (elements.toList.take length) := by
  rw [resize, Array.toList_append, valueLinks_append, Array.toList_replicate,
    valueLinks_replicate, List.append_nil, Array.toList_extract]
  simp

theorem toList_extract_size (elements : Array Value) (length : Nat) :
    (elements.extract length elements.size).toList = elements.toList.drop length := by
  simp [List.take_of_length_le]

namespace Exchange

variable {old : Array Value} {index : Nat}

theorem resize (old : Array Value) (length : Nat) :
    Exchange old (Elements.resize old length) (old.extract length old.size).toList [] := by
  refine ⟨fun l hl => Or.inr ?_, ?_, fun l hl => ?_⟩
  · rw [valueLinks_resize] at hl
    exact valueLinks_subset (List.take_subset _ _) hl
  · rw [toList_extract_size]
    exact valueLinks_subset (List.drop_subset _ _)
  · rw [valueLinks_resize, toList_extract_size]
    rw [← List.take_append_drop length old.toList, valueLinks_append] at hl
    exact (List.mem_append.mp hl).symm

theorem overwrite (old : Array Value) (index : Nat) (v : Value) :
    Exchange old (old.setIfInBounds index v) old[index]?.toList v.links := by
  refine ⟨fun l hl => ?_, valueLinks_subset fun w hw => ?_, fun l hl => ?_⟩
  · obtain ⟨w, hw, hlw⟩ := mem_valueLinks.mp hl
    rw [Array.toList_setIfInBounds] at hw
    rcases List.mem_or_eq_of_mem_set hw with hw | rfl
    · exact Or.inr (mem_valueLinks.mpr ⟨w, hw, hlw⟩)
    · exact Or.inl hlw
  · exact Array.mem_toList_iff.mpr (Array.mem_of_getElem? (Option.mem_toList.mp hw))
  · obtain ⟨w, hw, hlw⟩ := mem_valueLinks.mp hl
    obtain ⟨i, hi⟩ := List.mem_iff_getElem?.mp hw
    by_cases hii : i = index
    · subst hii
      refine Or.inl (mem_valueLinks.mpr ⟨w, ?_, hlw⟩)
      simpa using hi
    · refine Or.inr (mem_valueLinks.mpr ⟨w, List.mem_iff_getElem?.mpr ⟨i, ?_⟩, hlw⟩)
      rwa [Array.toList_setIfInBounds, List.getElem?_set_ne (Ne.symm hii)]

theorem append {others : Array Value} (hn : valueLinks others.toList = valueLinks old.toList)
    (v : Value) : Exchange old (others.push v) [] v.links := by
  refine ⟨fun l hl => ?_, List.nil_subset _, fun l hl => Or.inr ?_⟩
  · rw [Array.toList_push, valueLinks_append, hn, valueLinks_singleton] at hl
    exact (List.mem_append.mp hl).symm
  · rw [Array.toList_push, valueLinks_append, hn]
    exact List.mem_append_left _ hl

theorem push (old : Array Value) (v : Value) : Exchange old (old.push v) [] v.links := append rfl v

theorem pad (hle : old.size ≤ index) (v : Value) :
    Exchange old ((Elements.resize old index).push v) [] v.links := by
  refine append ?_ v
  rw [valueLinks_resize, List.take_of_length_le]
  simpa using hle

end Exchange

end Elements

namespace Heap.Matches

variable {h k : Heap} {links : List Link} {id : NodeId} {o o' : Object} {gone : List Link}
  (ha : Matches links h k)

include ha

theorem setObject (extra : List Link) (hs : h.Sees links (.object id)) (ho : h.object? id = some o)
    (hl : ∀ l ∈ o'.links, l ∈ extra ∨ l ∈ o.links) (hextra : ∀ l ∈ extra, h.Sees links l)
    (hlost : ∀ l ∈ o.links, l ∈ o'.links ∨ l ∈ links) (hproto : o'.prototype = o.prototype) :
    Matches links (h.setObject id o') (k.setObject id o') := by
  have hn : h.node? id = some (.object o) := object?_eq_some_iff.mp ho
  have hkind : (Node.object o').linkTo id = (Node.object o).linkTo id := rfl
  refine ha.setNode hn hs hkind (fun l hm => ?_) hlost fun p hp => Or.inl (hproto.symm.trans hp)
  exact (hl l hm).elim (hextra l) (hs.of_object? ho)

theorem openedObject {lost : List Pending} (extra : List Link)
    (hs : h.Sees links (.object id)) (ho : h.object? id = some o)
    (hl : ∀ l ∈ o'.links, l ∈ extra ∨ l ∈ o.links)
    (hextra : ∀ l ∈ extra, h.Sees links l)
    (hg : lost.flatMap Pending.references = gone.map Link.target) (hgone : gone ⊆ o.links)
    (hlost : ∀ l ∈ o.links, l ∈ gone ++ links ∨ l ∈ o'.links)
    (hproto : ∀ p, o'.prototype = some p →
      o.prototype = some p ∨ ¬ Relation.ReflTransGen h.Inherits p id) :
    Matches (gone ++ links) (h.opened id (.object o') lost) (k.opened id (.object o') lost) := by
  have hn : h.node? id = some (.object o) := object?_eq_some_iff.mp ho
  have hkind : (Node.object o').linkTo id = (Node.object o).linkTo id := rfl
  have hnew (l : Link) (hm : l ∈ (Node.object o').links) : h.Sees links l :=
    (hl l hm).elim (hextra l) (hs.of_object? ho)
  exact ha.opened hn hs hkind hnew hg (fun l hm => hs.of_object? ho (hgone hm))
    (fun l hm => (hlost l hm).symm) hproto

theorem takeOut (hs : h.Sees links (.object id)) (ho : h.object? id = some o)
    (hl : o'.links ⊆ o.links) (hgone : gone ⊆ o.links)
    (hlost : ∀ l ∈ o.links, l ∈ gone ∨ l ∈ o'.links) (hproto : o'.prototype = o.prototype) :
    Matches (gone ++ links) ((h.addHandles (gone.map Link.target)).setObject id o')
      ((k.addHandles (gone.map Link.target)).setObject id o') := by
  have hsees {l : Link} (hs : h.Sees links l) :
      (h.addHandles (gone.map Link.target)).Sees (gone ++ links) l :=
    Sees.append_left (hs.congr (fun x => node?_addHandles _ x h) (sameFrame_addHandles _ h).realm)
  refine (ha.hold fun l hm => hs.of_object? ho (hgone hm)).setObject [] (hsees hs)
    ((h.object?_addHandles _ id).trans ho) (fun l hm => Or.inr (hl hm)) (by simp)
    (fun l hm => (hlost l hm).symm.imp_right (List.mem_append_left _)) hproto

end Heap.Matches

namespace Heap.Agree

variable [History] {h k : Heap} {links : List Link} {v : Value} {id : NodeId} {o o' : Object}
  {gone : List Link} {key : String} (ha : Agree links h k)

include ha

/-! ## New objects -/

theorem runNewObject : Together HeapM.newObject HeapM.newObject h k fun id h' k' =>
    Agree (.object id :: links) h' k' ∧ ∃ p, Made h h' id (.plain "Object" p) := by
  refine ha.runRealm.bind fun r h₁ k₁ hq => ?_
  obtain ⟨ha, hr, hg⟩ := hq
  refine (ha.runNewWithPrototype "Object" fun id hid => ?_).mono
    fun _ _ _ hq => ⟨hq.1, _, hg.made hq.2⟩
  obtain rfl := Option.some.inj hid
  exact hr _ (by simp [Realm.references])

omit [History] ha in
theorem sees_links_exotic {className : String} {p : NodeId} {e : Exotic}
    (hp : h.Sees links (.object p)) (he : ∀ l ∈ e.links, h.Sees links l) :
    ∀ l ∈ ({ Object.plain className (some p) with exotic := e } : Object).links,
      h.Sees links l := fun l hl =>
  (Object.links_exotic hl).elim (he l) (sees_links_plain (fun _ hid => Option.some.inj hid ▸ hp) l)

theorem runNewString (text : String) :
    Together (HeapM.newString text) (HeapM.newString text) h k fun id h' k' =>
      Agree (.object id :: links) h' k' ∧ ∃ o, Made h h' id o ∧ o.exotic = .string text := by
  refine ha.runRealm.bind fun r h₁ k₁ hq => ?_
  obtain ⟨ha, hr, hg⟩ := hq
  refine (ha.runAllocObject (sees_links_exotic (hr _ (by simp [Realm.references])) ?_) rfl).mono
    fun _ _ _ hq => ⟨hq.1, _, hg.made hq.2.1, rfl⟩
  exact fun l hl => absurd hl List.not_mem_nil

theorem runNewText (text : String) :
    Together (HeapM.newText text) (HeapM.newText text) h k fun v h' k' =>
      Agree (v.links ++ links) h' k' :=
  (ha.runNewString text).bind fun _ _ _ hq => Together.pure hq.1

theorem runNewArray {elements : Array Value} (he : valueLinks elements.toList ⊆ links) :
    Together (HeapM.newArray elements) (HeapM.newArray elements) h k fun id h' k' =>
      Agree (.object id :: links) h' k' ∧ ∃ o, Made h h' id o ∧ o.exotic = .array elements := by
  refine ha.runRealm.bind fun r h₁ k₁ hq => ?_
  obtain ⟨ha, hr, hg⟩ := hq
  refine (ha.runAllocObject (sees_links_exotic (hr _ (by simp [Realm.references])) ?_) rfl).mono
    fun _ _ _ hq => ⟨hq.1, _, hg.made hq.2.1, rfl⟩
  exact fun l hl => .held (he hl)

/-! ## Writing to an object -/

theorem setObject (extra : List Link) (hs : h.Sees links (.object id)) (ho : h.object? id = some o)
    (hl : ∀ l ∈ o'.links, l ∈ extra ∨ l ∈ o.links) (hextra : ∀ l ∈ extra, h.Sees links l)
    (hlost : ∀ l ∈ o.links, l ∈ o'.links ∨ l ∈ links) (hproto : o'.prototype = o.prototype)
    (hsteady : (Node.object o).Steady (.object o')) :
    Agree links (h.setObject id o') (k.setObject id o') :=
  ha.move (ha.toMatches.setObject extra hs ho hl hextra hlost hproto)
    (.write (object?_eq_some_iff.mp ho) hsteady)
    (.write (ha.node?_right (object?_eq_some_iff.mp ho) hs) hsteady)

theorem replaceObject {lost : List Pending} (o' : Object) (extra gone : List Link)
    (hs : h.Sees links (.object id)) (ho : h.object? id = some o)
    (hl : ∀ l ∈ o'.links, l ∈ extra ∨ l ∈ o.links)
    (hextra : ∀ l ∈ extra, h.Sees links l)
    (hg : lost.flatMap Pending.references = gone.map Link.target) (hgone : gone ⊆ o.links)
    (hlost : ∀ l ∈ o.links, l ∈ gone ++ links ∨ l ∈ o'.links)
    (hproto : ∀ p, o'.prototype = some p →
      o.prototype = some p ∨ ¬ Relation.ReflTransGen h.Inherits p id)
    (hsteady : (Node.object o).Steady (.object o')) (hbare : lost.flatMap Pending.payloads = []) :
    Agree links (h.replaceNode id (.object o') lost) (k.replaceNode id (.object o') lost) ∧
      (.object id ∈ links → (h.replaceNode id (.object o') lost).object? id = some o') := by
  have hopen := ha.toMatches.openedObject extra hs ho hl hextra hg hgone hlost hproto
  refine (ha.replaceNode hopen (object?_eq_some_iff.mp ho) hs hsteady hg hbare).imp_right
    fun hnode hm => ?_
  exact object?_eq_some_iff.mpr (hnode hm)

theorem takeOut (hs : h.Sees links (.object id)) (ho : h.object? id = some o)
    (hl : o'.links ⊆ o.links) (hgone : gone ⊆ o.links)
    (hlost : ∀ l ∈ o.links, l ∈ gone ∨ l ∈ o'.links) (hproto : o'.prototype = o.prototype)
    (hsteady : (Node.object o).Steady (.object o')) :
    Agree (gone ++ links) ((h.addHandles (gone.map Link.target)).setObject id o')
      ((k.addHandles (gone.map Link.target)).setObject id o') := by
  have hn : h.node? id = some (.object o) := object?_eq_some_iff.mp ho
  have hwrite {g : Heap} (hg : g.node? id = some (.object o)) :
      Move (g.addHandles (gone.map Link.target))
        ((g.addHandles (gone.map Link.target)).setObject id o') :=
    .write ((node?_addHandles _ id g).trans hg) hsteady
  exact (ha.move (ha.toMatches.hold fun l hm => hs.of_object? ho (hgone hm)) (.hold h _)
    (.hold k _)).move (ha.toMatches.takeOut hs ho hl hgone hlost hproto) (hwrite hn)
    (hwrite (ha.node?_right hn hs))

omit [History] ha in
theorem references_flatMap_ofValue (vs : List Value) :
    (vs.flatMap Pending.ofValue).flatMap Pending.references = (valueLinks vs).map Link.target := by
  induction vs with
  | nil => rfl
  | cons v vs ih =>
    rw [List.flatMap_cons, List.flatMap_append, Pending.references_ofValue, ih, valueLinks_cons,
      List.map_append, v.map_target_links]

omit [History] ha in
theorem references_map_reference_toList (x : Option NodeId) :
    (x.toList.map Pending.reference).flatMap Pending.references =
      (x.toList.map Link.object).map Link.target := by
  cases x <;> simp [Pending.references]

/-! ## Prototypes -/

/-- A link that closes no cycle is made on both sides, and another one on neither. Nothing else about
the object changes. -/
theorem runSetPrototype (hs : h.Sees links (.object id)) {p : Option NodeId}
    (hp : ∀ x, p = some x → h.Sees links (.object x)) :
    Together (HeapM.setPrototype id p) (HeapM.setPrototype id p) h k fun r h' k' =>
      Agree links h' k' ∧ (r = .ok () ∨ r = .error .prototypeCycle) ∧
        (.object id ∈ links → ∀ o, h.object? id = some o →
          ∃ q, h'.object? id = some { o with prototype := q }) := by
  refine Together.get_bind ?_
  rw [ha.closesCycle_eq id hp]
  cases hc : h.closesCycle id p with
  | true => exact Together.pure ⟨ha, Or.inr rfl, fun _ o ho => ⟨o.prototype, ho⟩⟩
  | false =>
    obtain ⟨o, ho⟩ := ha.exists_object hs
    rw [ha.object?_eq hs, ho]
    refine Together.set_bind (Together.pure ((ha.replaceObject { o with prototype := p }
      (p.toList.map .object) (o.prototype.toList.map .object) hs ho
      (fun l hl => Object.links_prototype hl) ?_
      (references_map_reference_toList _) ?_ (fun l hl => ?_) (fun x hx => Or.inr fun hpath => ?_)
      (.of_exotic rfl rfl) (Pending.payloads_map_reference _)).imp_right
        fun hnode => ⟨Or.inl rfl, fun hm o' ho' => ⟨p, ?_⟩⟩))
    · intro l hl
      obtain ⟨x, hx, rfl⟩ := List.mem_map.mp hl
      exact hp x (Option.mem_toList.mp hx)
    · intro l hl
      obtain ⟨x, hx, rfl⟩ := List.mem_map.mp hl
      exact Object.mem_links_iff.mpr (Or.inl ⟨x, Option.mem_toList.mp hx, rfl⟩)
    · exact (Object.links_prototype (o := { o with prototype := p }) hl).imp_left
        (List.mem_append_left _)
    · have := ha.left.sound.closesCycle_iff.mpr ⟨x, hx, ha.exists_object (hp x hx), hpath⟩
      rw [hc] at this
      cases this
    · obtain rfl := Option.some.inj ho'
      exact hnode hm

/-! ## Fields -/

omit [History] ha in
theorem mem_valueLinks_insert {fields : Fields Value} {l : Link}
    (hl : l ∈ valueLinks (fields.insert key v).values) :
    l ∈ v.links ∨ l ∈ valueLinks fields.values := by
  obtain ⟨w, hw, hlw⟩ := mem_valueLinks.mp hl
  rcases Fields.mem_values_insert hw with he | hw
  · exact Or.inl (he ▸ hlw)
  · exact Or.inr (mem_valueLinks.mpr ⟨w, hw, hlw⟩)

omit [History] ha in
theorem mem_valueLinks_insert_or {fields : Fields Value} {l : Link} (v : Value)
    (hl : l ∈ valueLinks fields.values) :
    l ∈ valueLinks (fields.get? key).toList ∨ l ∈ valueLinks (fields.insert key v).values := by
  obtain ⟨w, hw, hl⟩ := mem_valueLinks.mp hl
  rcases Fields.mem_values_insert_or key v hw with hw | hw
  · exact Or.inr (mem_valueLinks.mpr ⟨w, hw, hl⟩)
  · exact Or.inl (mem_valueLinks.mpr ⟨w, Option.mem_toList.mpr hw, hl⟩)

/-- A plain field is written; on an object that is held it is there afterwards. -/
theorem runInsertField (hs : h.Sees links (.object id)) (hv : h.SeesValue links v) (key : String) :
    Together (HeapM.insertField id key v) (HeapM.insertField id key v) h k fun _ h' k' =>
      Agree links h' k' ∧ (.object id ∈ links →
        ∃ o, h'.object? id = some o ∧ v ∈ o.fields.values) := by
  refine Together.get_bind ?_
  obtain ⟨o, ho⟩ := ha.exists_object hs
  rw [ha.object?_eq hs, ho]
  have hgone : valueLinks (o.fields.get? key).toList ⊆ o.links := by
    intro l hl
    obtain ⟨w, hw, hl⟩ := mem_valueLinks.mp hl
    exact Object.mem_links_iff.mpr
      (Or.inr (Or.inl ⟨w, Fields.mem_values_of_get? (Option.mem_toList.mp hw), hl⟩))
  obtain ⟨hagree, hnode⟩ := ha.replaceObject { o with fields := o.fields.insert key v } v.links
    (valueLinks (o.fields.get? key).toList) hs ho
    (fun l => Object.links_fields fun l => mem_valueLinks_insert) hv
    (references_flatMap_ofValue _) hgone
    (fun l => Object.links_fields (o := { o with fields := o.fields.insert key v })
      fun l hl => (mem_valueLinks_insert_or v hl).imp_left (List.mem_append_left _))
    (fun p hp => Or.inl hp) (.of_exotic rfl rfl) (Pending.payloads_flatMap_ofValue _)
  exact Together.set ⟨hagree, fun hm => ⟨_, hnode hm, Fields.mem_values_insert_self⟩⟩

/-! ## Elements -/

omit [History] ha in
theorem exotic_of_elementsOf? {elements : Array Value} (he : h.elementsOf? id = some elements) :
    ∃ o, h.object? id = some o ∧ o.exotic = .array elements := by
  obtain ⟨o, ho, he⟩ := Option.bind_eq_some_iff.mp he
  refine ⟨o, ho, ?_⟩
  simp only [Object.elements?] at he
  split at he
  · next hx => rw [hx, Option.some.inj he]
  · cases he

omit [History] ha in
theorem mem_links_of_element {elements : Array Value} (he : o.exotic = .array elements) {l : Link}
    (hl : l ∈ valueLinks elements.toList) : l ∈ o.links :=
  Object.mem_links_iff.mpr (Or.inr (Or.inr (Or.inr (Or.inr (Or.inr (he ▸ hl))))))

omit [History] ha in
theorem links_elements {elements : Array Value} (he : o.exotic = .array elements)
    (others : Array Value) {l : Link} (hl : l ∈ o.links) :
    l ∈ valueLinks elements.toList ∨ l ∈ ({ o with exotic := .array others } : Object).links := by
  rcases Object.links_exotic (o := { o with exotic := .array others }) (e := o.exotic) hl
    with hl | hl
  · rw [he] at hl
    exact Or.inl hl
  · exact Or.inr hl

omit [History] ha in
theorem steady_elements {elements : Array Value} (he : o.exotic = .array elements)
    (others : Array Value) :
    (Node.object o).Steady (.object { o with exotic := .array others }) :=
  .object rfl (by simp [Object.text?, he]) (by simp [Node.boundThis?, Object.callable?, he])
    (by simp [Node.identity?, Object.callable?, he])

/-- The elements of an array are exchanged for others, and the array is otherwise what it was. -/
theorem setElements {elements old : Array Value} {lost : List Value} {extra : List Link}
    (hs : h.Sees links (.object id)) (he : h.elementsOf? id = some old)
    (hx : Elements.Exchange old elements lost extra) (hextra : ∀ l ∈ extra, h.Sees links l) :
    Agree links (h.setElements id elements lost) (k.setElements id elements lost) ∧
      (.object id ∈ links → ∀ o, h.object? id = some o →
        (h.setElements id elements lost).object? id = some { o with exotic := .array elements }) := by
  obtain ⟨o, ho, he⟩ := exotic_of_elementsOf? he
  rw [Heap.setElements, Heap.setElements, ha.object?_eq hs, ho]
  refine (ha.replaceObject { o with exotic := .array elements } extra (valueLinks lost) hs ho
    (fun l hl => ?_) hextra (references_flatMap_ofValue _) (fun l hl => ?_) (fun l hl => ?_)
    (fun p => Or.inl) (steady_elements he elements)
    (Pending.payloads_flatMap_ofValue _)).imp_right fun hobject hm o' ho' => ?_
  · rcases Object.links_exotic hl with hl | hl
    · exact (hx.gained l hl).imp_right fun hl => mem_links_of_element he hl
    · exact Or.inr hl
  · exact mem_links_of_element he (hx.gone hl)
  · rcases links_elements he elements hl with hl | hl
    · exact (hx.kept l hl).imp (List.mem_append_left _) fun hl => mem_links_of_element rfl hl
    · exact Or.inr hl
  · obtain rfl := Option.some.inj ho'
    exact hobject hm

theorem runSetLength (hs : h.Sees links (.object id)) (length : Nat) :
    Together (HeapM.setLength id length) (HeapM.setLength id length) h k fun _ h' k' =>
      Agree links h' k' := by
  refine Together.get_bind ?_
  rw [ha.elementsOf?_eq hs]
  cases he : h.elementsOf? id with
  | none => exact Together.pure ha
  | some elements =>
    dsimp only
    split
    · exact Together.pure ha
    · exact Together.set_bind (Together.pure
        (ha.setElements hs he (.resize elements length) (List.forall_mem_nil _)).1)

theorem runSetElement (hs : h.Sees links (.object id)) (hv : h.SeesValue links v) (index : Nat) :
    Together (HeapM.setElement id index v) (HeapM.setElement id index v) h k fun _ h' k' =>
      Agree links h' k' := by
  refine Together.get_bind ?_
  rw [ha.elementsOf?_eq hs]
  cases he : h.elementsOf? id with
  | none => exact Together.pure ha
  | some elements =>
    dsimp only
    split
    · exact Together.set_bind (Together.pure
        (ha.setElements hs he (.overwrite elements index v) hv).1)
    · split
      · exact Together.pure ha
      · next hge _ =>
        exact Together.set_bind (Together.pure
          (ha.setElements hs he (.pad (Nat.le_of_not_lt hge) v) hv).1)

theorem runPush (hs : h.Sees links (.object id)) (hv : h.SeesValue links v) :
    Together (HeapM.push id v) (HeapM.push id v) h k fun _ h' k' => Agree links h' k' := by
  refine Together.get_bind ?_
  rw [ha.elementsOf?_eq hs]
  cases he : h.elementsOf? id with
  | none => exact Together.pure ha
  | some elements =>
    dsimp only
    split
    · exact Together.pure ha
    · exact Together.set_bind (Together.pure (ha.setElements hs he (.push elements v) hv).1)

omit [History] ha in
theorem replaceNode_nil (node : Node) : h.replaceNode id node [] = h.setNode id node := by
  have hb : (id :: (h.setNode id node).borrowed).erase id = (h.setNode id node).borrowed :=
    List.erase_cons_head ..
  show { h.setNode id node with borrowed := (id :: (h.setNode id node).borrowed).erase id } = _
  rw [hb]

/-- What is taken off an array is held. -/
theorem runPop (hs : h.Sees links (.object id)) :
    Together (HeapM.pop id) (HeapM.pop id) h k fun r h' k' =>
      Agree (valueLinks r.toList ++ links) h' k' := by
  refine Together.get_bind ?_
  rw [ha.elementsOf?_eq hs]
  cases he : h.elementsOf? id with
  | none => exact Together.pure ha
  | some elements =>
    rw [Option.bind_some]
    cases hb : elements.back? with
    | none => exact Together.pure ha
    | some last =>
      obtain ⟨o, ho, hx⟩ := exotic_of_elementsOf? he
      have hset (g : Heap) (hg : g.object? id = some o) :
          (g.addHandles last.references).setElements id elements.pop [] =
            (g.addHandles ((valueLinks [last]).map Link.target)).setObject id
              { o with exotic := .array elements.pop } := by
        have hrefs : (valueLinks [last]).map Link.target = last.references := by
          rw [valueLinks_singleton, last.map_target_links]
        rw [Heap.setElements, object?_addHandles, hg, hrefs]
        exact replaceNode_nil _
      have hlist : valueLinks elements.toList =
          valueLinks elements.pop.toList ++ valueLinks [last] := by
        rw [← valueLinks_append, Array.toList_pop, List.dropLast_append_getLast? last]
        rwa [Array.getLast?_toList]
      refine Together.set_bind (Together.pure ?_)
      rw [hset h ho, hset k ((ha.object?_eq hs).trans ho)]
      refine ha.takeOut hs ho (fun l hl => ?_) (fun l hl => ?_) (fun l hl => ?_) rfl
        (steady_elements hx elements.pop)
      · rcases Object.links_exotic hl with hl | hl
        · exact mem_links_of_element hx (hlist ▸ List.mem_append_left _ hl)
        · exact hl
      · exact mem_links_of_element hx (hlist ▸ List.mem_append_right _ hl)
      · rcases links_elements hx elements.pop hl with hl | hl
        · rw [hlist] at hl
          exact (List.mem_append.mp hl).symm.imp_right fun hl => mem_links_of_element rfl hl
        · exact Or.inr hl

end Heap.Agree

end ScriptCore
