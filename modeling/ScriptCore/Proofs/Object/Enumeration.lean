import ScriptCore.Proofs.Object.BoundedLists
import ScriptCore.Proofs.Object.Writes

/-!
# The order of plain fields

What has happened to a table of fields is a list of events: a value was written under a name, or a name
was removed. Such a history says which value was written last under a name (`LastWritten`), and at which
moment a name was inserted for the last time, which is when it was written while it was absent
(`InsertedAt`). The entries that a history **enumerates** (`Enumerates`) are each name that is present,
once, with the value written last, in the order of these moments. There is one such list for every
history (`Enumerates.unique`), and a table of fields always has it (`Enumerates.apply`): overwriting keeps
a name in its place, a removal leaves the order of the others, and a name that comes back goes to the
end.

An object on a heap is such a table, whatever is done to it: an assignment is an event unless its name
means something special to the object, an insertion always is, and registering an accessor never is
(`FieldWrite.event?`, `Heap.Hosted.performFieldWrite`). So the fields of an object are enumerated as its
history says (`Heap.FieldRun.enumerates`).
-/

namespace ScriptCore

/-- What happens to a table of fields. -/
inductive FieldEvent (α : Type) where
  | wrote (key : String) (value : α)
  | removed (key : String)

def FieldEvent.key {α : Type} : FieldEvent α → String
  | .wrote key _ | .removed key => key

/-! ## Histories -/

section Histories

variable {α : Type} {events : List (FieldEvent α)} {e : FieldEvent α} {key name : String}
  {value other : α} {m n : Nat}

/-- A value was written under a name, and nothing has happened under that name since. -/
def LastWritten (events : List (FieldEvent α)) (key : String) (value : α) : Prop :=
  ∃ before after, events = before ++ .wrote key value :: after ∧ ∀ e ∈ after, e.key ≠ key

def Absent (events : List (FieldEvent α)) (key : String) : Prop :=
  ∀ value, ¬ LastWritten events key value

/-- A name was written at a moment when it was absent, and has not been removed since. -/
def InsertedAt (events : List (FieldEvent α)) (key : String) (moment : Nat) : Prop :=
  ∃ before value after, events = before ++ .wrote key value :: after ∧ before.length = moment ∧
    Absent before key ∧ .removed key ∉ after

/-- The entries that a history enumerates: each name that is present, once, with the value that was
written last, by the moment of the last insertion. -/
structure Enumerates (events : List (FieldEvent α)) (entries : List (String × α)) : Prop where
  nodup : (entries.map Prod.fst).Nodup
  mem_iff : ∀ key value, (key, value) ∈ entries ↔ LastWritten events key value
  ordered : entries.Pairwise fun a b =>
    ∃ m n, InsertedAt events a.1 m ∧ InsertedAt events b.1 n ∧ m < n

theorem append_singleton_eq_append_cons_iff {β : Type} {xs before after : List β} {x y : β} :
    xs ++ [x] = before ++ y :: after ↔ (after = [] ∧ before = xs ∧ y = x) ∨
      ∃ rest, after = rest ++ [x] ∧ xs = before ++ y :: rest := by
  constructor
  · intro he
    rcases List.eq_nil_or_concat after with rfl | ⟨rest, z, rfl⟩
    · obtain ⟨hxs, hx⟩ := List.append_inj' he rfl
      exact Or.inl ⟨rfl, hxs.symm, (List.singleton_inj.mp hx).symm⟩
    · rw [List.concat_eq_append, ← List.cons_append, ← List.append_assoc] at he
      obtain ⟨hxs, hx⟩ := List.append_inj' he rfl
      exact Or.inr ⟨rest, by rw [List.concat_eq_append, List.singleton_inj.mp hx], hxs⟩
  · rintro (⟨rfl, rfl, rfl⟩ | ⟨rest, rfl, rfl⟩)
    · rfl
    · simp

/-! ## One more event -/

theorem lastWritten_append_iff : LastWritten (events ++ [e]) key value ↔
    e = .wrote key value ∨ e.key ≠ key ∧ LastWritten events key value := by
  constructor
  · rintro ⟨before, after, he, hafter⟩
    rcases append_singleton_eq_append_cons_iff.mp he with ⟨-, -, hlast⟩ | ⟨rest, rfl, rfl⟩
    · exact Or.inl hlast.symm
    · exact Or.inr ⟨hafter e (by simp), before, rest, rfl,
        fun x hx => hafter x (List.mem_append_left _ hx)⟩
  · rintro (rfl | ⟨hne, before, after, rfl, hafter⟩)
    · exact ⟨events, [], rfl, fun _ hx => absurd hx List.not_mem_nil⟩
    · refine ⟨before, after ++ [e], by simp, fun x hx => ?_⟩
      rcases List.mem_append.mp hx with hx | hx
      · exact hafter x hx
      · exact List.mem_singleton.mp hx ▸ hne

theorem insertedAt_append_iff : InsertedAt (events ++ [e]) key m ↔
    ((∃ value, e = .wrote key value) ∧ Absent events key ∧ m = events.length) ∨
      e ≠ .removed key ∧ InsertedAt events key m := by
  constructor
  · rintro ⟨before, value, after, he, rfl, habsent, hafter⟩
    rcases append_singleton_eq_append_cons_iff.mp he with ⟨-, rfl, hlast⟩ | ⟨rest, rfl, rfl⟩
    · exact Or.inl ⟨⟨value, hlast.symm⟩, habsent, rfl⟩
    · rw [List.mem_append, List.mem_singleton, not_or] at hafter
      exact Or.inr ⟨Ne.symm hafter.2, before, value, rest, rfl, rfl, habsent, hafter.1⟩
  · rintro (⟨⟨value, rfl⟩, habsent, rfl⟩ | ⟨hne, before, value, after, rfl, hm, habsent, hafter⟩)
    · exact ⟨events, value, [], rfl, rfl, habsent, List.not_mem_nil⟩
    · refine ⟨before, value, after ++ [e], by simp, hm, habsent, ?_⟩
      rw [List.mem_append, List.mem_singleton, not_or]
      exact ⟨hafter, Ne.symm hne⟩

theorem LastWritten.mem (hw : LastWritten events key value) : .wrote key value ∈ events := by
  obtain ⟨before, after, rfl, -⟩ := hw
  exact List.mem_append_right _ List.mem_cons_self

theorem InsertedAt.not_absent (hi : InsertedAt events key m) : ¬ Absent events key := by
  induction events using List.reverseRecOn with
  | nil =>
    obtain ⟨before, value, after, he, -⟩ := hi
    simp at he
  | append_singleton events e ih =>
    intro habsent
    rcases insertedAt_append_iff.mp hi with ⟨⟨value, rfl⟩, -⟩ | ⟨hne, hi⟩
    · exact habsent value (lastWritten_append_iff.mpr (Or.inl rfl))
    · refine ih hi fun value hv => ?_
      by_cases hkey : e.key = key
      · cases e with
        | wrote name other =>
          obtain rfl : name = key := hkey
          exact habsent other (lastWritten_append_iff.mpr (Or.inl rfl))
        | removed name => exact hne (congrArg FieldEvent.removed hkey)
      · exact habsent value (lastWritten_append_iff.mpr (Or.inr ⟨hkey, hv⟩))

theorem InsertedAt.lt_length (hi : InsertedAt events key m) : m < events.length := by
  obtain ⟨before, value, after, rfl, rfl, -⟩ := hi
  simp

/-- **There is one moment** at which a name was inserted for the last time. -/
theorem InsertedAt.unique (hm : InsertedAt events key m) (hn : InsertedAt events key n) : m = n := by
  induction events using List.reverseRecOn with
  | nil =>
    obtain ⟨before, value, after, he, -⟩ := hm
    simp at he
  | append_singleton events e ih =>
    rcases insertedAt_append_iff.mp hm with ⟨-, habsent, rfl⟩ | ⟨-, hm⟩ <;>
      rcases insertedAt_append_iff.mp hn with ⟨-, habsent', rfl⟩ | ⟨-, hn⟩
    · rfl
    · exact absurd habsent hn.not_absent
    · exact absurd habsent' hm.not_absent
    · exact ih hm hn

theorem LastWritten.exists_insertedAt (hw : LastWritten events key value) :
    ∃ m, InsertedAt events key m := by
  induction events using List.reverseRecOn generalizing value with
  | nil =>
    obtain ⟨before, after, he, -⟩ := hw
    simp at he
  | append_singleton events e ih =>
    rcases lastWritten_append_iff.mp hw with rfl | ⟨hne, hw⟩
    · by_cases habsent : Absent events key
      · exact ⟨_, insertedAt_append_iff.mpr (Or.inl ⟨⟨value, rfl⟩, habsent, rfl⟩)⟩
      · obtain ⟨earlier, hw⟩ := not_forall_not.mp habsent
        obtain ⟨m, hm⟩ := ih hw
        exact ⟨m, insertedAt_append_iff.mpr (Or.inr ⟨by simp, hm⟩)⟩
    · obtain ⟨m, hm⟩ := ih hw
      exact ⟨m, insertedAt_append_iff.mpr (Or.inr ⟨fun he => hne (he ▸ rfl), hm⟩)⟩

/-! ## The entries -/

namespace Enumerates

variable {entries entries' : List (String × α)} {fields : Fields α}

theorem nil : Enumerates ([] : List (FieldEvent α)) [] :=
  ⟨List.nodup_nil, fun _ _ => ⟨fun hm => absurd hm List.not_mem_nil, fun ⟨_, _, he, _⟩ => by
    simp at he⟩, .nil⟩

/-- **A history enumerates one list.** -/
theorem unique (hl : Enumerates events entries) (hl' : Enumerates events entries') :
    entries' = entries := by
  refine List.Perm.eq_of_pairwise (fun a b _ _ hab hba => ?_) hl'.ordered hl.ordered
    ((List.perm_ext_iff_of_nodup (.of_map _ hl'.nodup) (.of_map _ hl.nodup)).mpr fun a => ?_)
  · obtain ⟨m, n, hm, hn, hlt⟩ := hab
    obtain ⟨n', m', hn', hm', hlt'⟩ := hba
    have := hm.unique hm'
    have := hn.unique hn'
    omega
  · rw [hl.mem_iff, hl'.mem_iff]

theorem ordered_append (hl : Enumerates events entries) {kept : List (String × α)}
    (hk : kept.Sublist entries) (hne : ∀ a ∈ kept, e ≠ .removed a.1) :
    kept.Pairwise fun a b =>
      ∃ m n, InsertedAt (events ++ [e]) a.1 m ∧ InsertedAt (events ++ [e]) b.1 n ∧ m < n := by
  refine (hl.ordered.sublist hk).imp_of_mem fun {a b} ha hb => ?_
  rintro ⟨m, n, hm, hn, hlt⟩
  exact ⟨m, n, insertedAt_append_iff.mpr (Or.inr ⟨hne a ha, hm⟩),
    insertedAt_append_iff.mpr (Or.inr ⟨hne b hb, hn⟩), hlt⟩

/-- **A write** keeps a name in its place, and puts a new one at the end. -/
theorem insert (hl : Enumerates events fields.entries) (key : String) (value : α) :
    Enumerates (events ++ [.wrote key value]) (fields.insert key value).entries := by
  have hkept := hl.ordered_append (e := .wrote key value) (List.Sublist.refl _) (by simp)
  refine ⟨(fields.insert key value).nodup, fun name other => ?_, ?_⟩
  · rw [Fields.mem_entries_insert, lastWritten_append_iff, hl.mem_iff]
    simp only [FieldEvent.wrote.injEq, FieldEvent.key, ne_eq, eq_comm]
  · rw [Fields.insert]
    split
    · refine List.pairwise_map.mpr (hkept.imp fun {a b} hab => ?_)
      have hname (entry : String × α) :
          (if entry.1 = key then (key, value) else entry).1 = entry.1 := by
        split
        · next he => exact he.symm
        · rfl
      rw [hname, hname]
      exact hab
    · next hnew =>
      have habsent : Absent events key := fun other hw =>
        hnew (List.mem_map_of_mem ((hl.mem_iff key other).mpr hw))
      refine List.pairwise_append.mpr ⟨hkept, List.pairwise_singleton .., fun a ha b hb => ?_⟩
      obtain rfl := List.mem_singleton.mp hb
      obtain ⟨m, hm⟩ := ((hl.mem_iff a.1 a.2).mp ha).exists_insertedAt
      exact ⟨m, events.length, insertedAt_append_iff.mpr (Or.inr ⟨by simp, hm⟩),
        insertedAt_append_iff.mpr (Or.inl ⟨⟨value, rfl⟩, habsent, rfl⟩), hm.lt_length⟩

/-- **A removal** leaves the order of the other names. -/
theorem erase (hl : Enumerates events fields.entries) (key : String) :
    Enumerates (events ++ [.removed key]) (fields.erase key).entries := by
  refine ⟨(fields.erase key).nodup, fun name other => ?_, ?_⟩
  · rw [Fields.mem_entries_erase, lastWritten_append_iff, hl.mem_iff]
    simp only [reduceCtorEq, false_or, FieldEvent.key, ne_eq, eq_comm]
  · refine hl.ordered_append List.filter_sublist fun a ha he => ?_
    exact of_decide_eq_true (List.mem_filter.mp ha).2 (FieldEvent.removed.inj he).symm

end Enumerates

namespace Fields

def apply (fields : Fields α) : FieldEvent α → Fields α
  | .wrote key value => fields.insert key value
  | .removed key => fields.erase key

/-- The history of fields of which nothing is known but the entries: as if they had been written one
after the other. -/
def written (fields : Fields α) : List (FieldEvent α) :=
  fields.entries.map fun entry => .wrote entry.1 entry.2

end Fields

namespace Enumerates

variable {fields : Fields α}

/-- **Whatever happens to fields**, their entries are those of their history. -/
theorem apply (more : List (FieldEvent α)) : ∀ {events : List (FieldEvent α)} {fields : Fields α},
    Enumerates events fields.entries →
      Enumerates (events ++ more) (more.foldl Fields.apply fields).entries := by
  induction more with
  | nil =>
    intro events fields hl
    rwa [List.append_nil]
  | cons e more ih =>
    intro events fields hl
    rw [← List.singleton_append, ← List.append_assoc]
    cases e with
    | wrote key value => exact ih (hl.insert key value)
    | removed key => exact ih (hl.erase key)

theorem written (fields : Fields α) : Enumerates fields.written fields.entries := by
  have hempty : Enumerates [] (Fields.empty : Fields α).entries := Enumerates.nil
  have hl := hempty.apply fields.written
  rw [List.nil_append, Fields.written, List.foldl_map] at hl
  rw [← Fields.entries_ofList fields.nodup]
  exact hl

end Enumerates

end Histories

/-! ## Objects -/

/-- What is done to the fields of an object, or to the accessors beside them. -/
inductive FieldWrite where
  | assign (key : String) (v : Value)
  | insert (key : String) (v : Value)
  | remove (key : String)
  | addGetter (key : String) (getter : NodeId)
  | addSetter (key : String) (setter : NodeId)

namespace FieldWrite

def perform (id : NodeId) : FieldWrite → HeapM (Option Value)
  | .assign key v => do
    HeapM.assignField id key v
    return none
  | .insert key v => do
    HeapM.insertField id key v
    return none
  | .remove key => HeapM.removeField id key
  | .addGetter key getter => do
    HeapM.addGetter id key getter
    return none
  | .addSetter key setter => do
    HeapM.addSetter id key setter
    return none

def links : FieldWrite → List Link
  | .assign _ v | .insert _ v => v.links
  | .remove _ => []
  | .addGetter _ f | .addSetter _ f => [.object f]

/-- What happens to the fields of an object of some kind. An assignment to `__proto__` is none of its
fields, and neither is one to the length of an array. -/
def event? (kind : ObjectKind) : FieldWrite → Option (FieldEvent Value)
  | .assign key v =>
    if key = protoKey ∨ key = "length" ∧ kind = .array then none else some (.wrote key v)
  | .insert key v => some (.wrote key v)
  | .remove key => some (.removed key)
  | .addGetter .. | .addSetter .. => none

theorem eq_of_event?_wrote {kind : ObjectKind} {w : FieldWrite} {key : String} {v : Value}
    (he : w.event? kind = some (.wrote key v)) :
    w = .insert key v ∨ w = .assign key v ∧ key ≠ protoKey ∧ (kind = .array → key ≠ "length") := by
  cases w with
  | assign name x =>
    rw [event?] at he
    split at he
    · cases he
    · next hplain =>
      obtain ⟨rfl, rfl⟩ := FieldEvent.wrote.inj (Option.some.inj he)
      exact Or.inr ⟨rfl, fun hp => hplain (Or.inl hp), fun hk hl => hplain (Or.inr ⟨hl, hk⟩)⟩
  | insert name x =>
    obtain ⟨rfl, rfl⟩ := FieldEvent.wrote.inj (Option.some.inj he)
    exact Or.inl rfl
  | remove name => cases he
  | addGetter | addSetter => cases he

end FieldWrite

namespace Heap

variable {g h k : Heap} {id : NodeId} {o : Object} {links links' : List Link} {w : FieldWrite}
  {told : List FieldWrite} {key : String} {v : Value}

/-- The same object, as far as its fields go: one of the same kind, on which these events have happened
to the fields. -/
structure Fielded (o o' : Object) (events : List (FieldEvent Value)) : Prop where
  kind : o'.kind = o.kind
  fields : o'.fields = events.foldl Fields.apply o.fields

theorem isArray_iff (ho : h.object? id = some o) :
    h.isArray (.object id) = true ↔ o.kind = .array := by
  rw [isArray, kind?, objectOf?, Value.id?, Option.bind_some, ho, Option.map_some, beq_iff_eq,
    Option.some.injEq]

namespace Hosted

variable (hh : Hosted links h) (hid : .object id ∈ links) (ho : h.object? id = some o)

include hh hid ho

theorem insertField (hv : v.links ⊆ links) (key : String) :
    ∃ k, (HeapM.insertField id key v).run h = ((), k) ∧ Hosted links k ∧
      k.object? id = some { o with fields := o.fields.insert key v } := by
  let history : History := .nesting
  have hagree := (hh.agree.runInsertField (.held hid) (.held hv) key).2.1
  have hvalue (x : NodeId) (hx : v = .object x) : ∃ o, h.object? x = some o := by
    subst hx
    exact hh.exists_object (hv (List.mem_singleton.mpr rfl))
  have hlive := hagree.left.isLive (List.mem_map_of_mem hid)
  exact ⟨_, rfl, .of_agree hagree, hh.reachable.object?_insertField ho hvalue key hlive⟩

theorem assignProto (hv : v.links ⊆ links) :
    ∃ k o', (HeapM.assignField id protoKey v).run h = ((), k) ∧ Hosted links k ∧
      k.object? id = some o' ∧ Fielded o o' [] := by
  let history : History := .nesting
  have hlink (p : Option NodeId) (hp : ∀ x, p = some x → .object x ∈ links) :
      ∃ k o', (discard <| HeapM.setPrototype id p : HeapM Unit).run h = ((), k) ∧ Hosted links k ∧
        k.object? id = some o' ∧ Fielded o o' [] := by
    obtain ⟨hagree, -, hobject⟩ :=
      (hh.agree.runSetPrototype (.held hid) fun x hx => .held (hp x hx)).2
    obtain ⟨q, hq⟩ := hobject hid o ho
    exact ⟨_, _, rfl, .of_agree hagree, hq, rfl, rfl⟩
  unfold HeapM.assignField
  rw [if_pos rfl]
  cases v with
  | object p => exact hlink (some p) fun x hx => Option.some.inj hx ▸ hv (List.mem_singleton.mpr rfl)
  | null => exact hlink none fun x hx => absurd hx (Option.some_ne_none x).symm
  | _ => exact ⟨h, o, rfl, hh, ho, rfl, rfl⟩

theorem assignLength (hkind : o.kind = .array) (hv : v.links ⊆ links) :
    ∃ k o', (HeapM.assignField id "length" v).run h = ((), k) ∧ Hosted links k ∧
      k.object? id = some o' ∧ Fielded o o' [] := by
  obtain ⟨elements, hx⟩ : ∃ elements, o.exotic = .array elements := by
    rw [Object.kind] at hkind
    cases hx : o.exotic with
    | array elements => exact ⟨elements, rfl⟩
    | _ =>
      rw [hx] at hkind
      cases hkind
  have he : h.elementsOf? id = some elements.toList.toArray := by
    rw [elementsOf?, ho, Option.bind_some, Object.elements?, hx]
  obtain ⟨o', ho', ha⟩ := hh.exists_holdsArray hid he
  obtain rfl := Option.some.inj (ho.symm.trans ho')
  obtain ⟨answer, next, k, hy, hrun, hk⟩ := ha.perform (w := .assignLength v) hv
  have hsilent : answer = .silent := by cases hy <;> rfl
  subst hsilent
  have hend := congrArg Prod.snd hrun
  exact ⟨k, _, Prod.ext rfl hend, hk.hosted, hk.object, hkind.symm, rfl⟩

/-- **An assignment** is an event for the fields unless its name means something special. -/
theorem assignField (hv : v.links ⊆ links) (key : String) :
    ∃ k o', (HeapM.assignField id key v).run h = ((), k) ∧ Hosted links k ∧
      k.object? id = some o' ∧
      Fielded o o' ((FieldWrite.assign key v).event? o.kind).toList := by
  rw [FieldWrite.event?]
  by_cases hproto : key = protoKey
  · rw [if_pos (Or.inl hproto), hproto]
    exact hh.assignProto hid ho hv
  by_cases hlength : key = "length" ∧ o.kind = .array
  · rw [if_pos (Or.inr hlength), hlength.1]
    exact hh.assignLength hid ho hlength.2 hv
  rw [if_neg (not_or.mpr ⟨hproto, hlength⟩)]
  have hplain (hk : key = "length") : h.isArray (.object id) = false := by
    rw [← Bool.not_eq_true, isArray_iff ho]
    exact fun hkind => hlength ⟨hk, hkind⟩
  obtain ⟨k, hrun, hk, hobject⟩ := hh.insertField hid ho hv key
  exact ⟨k, _, (run_assignField v hproto hplain).trans hrun, hk, hobject, rfl, rfl⟩

/-- What is taken off an object is held by the host. -/
theorem removeField (key : String) :
    ∃ taken k o', (HeapM.removeField id key).run h = (taken, k) ∧
      Hosted (valueLinks taken.toList ++ links) k ∧ k.object? id = some o' ∧
      Fielded o o' [.removed key] := by
  let history : History := .nesting
  have hagree := (hh.agree.runRemoveField (.held hid) key).2
  cases hv : o.fields.get? key with
  | none =>
    have hrun : (HeapM.removeField id key).run h = (none, h) := by
      rw [HeapM.removeField, run_get_bind, ho]
      dsimp only
      rw [hv]
      rfl
    rw [hrun] at hagree
    exact ⟨none, h, o, hrun, .of_agree hagree, ho, rfl, (Fields.erase_of_get?_eq_none hv).symm⟩
  | some v =>
    let o' : Object := { o with fields := o.fields.erase key }
    have hrun : (HeapM.removeField id key).run h =
        (some v, (h.addHandles v.references).setObject id o') := by
      rw [HeapM.removeField, run_get_bind, ho]
      dsimp only
      rw [hv]
      rfl
    rw [hrun] at hagree
    refine ⟨some v, _, o', hrun, .of_agree hagree, ?_, rfl, rfl⟩
    exact object?_eq_some_iff.mpr (node?_setNode_self
      ((node?_addHandles _ id h).trans (object?_eq_some_iff.mp ho)))

/-- **Whatever is done to the fields of an object** is an event for them, or nothing happens to them. -/
theorem performFieldWrite (hw : w.links ⊆ links) :
    ∃ taken k o', (w.perform id).run h = (taken, k) ∧
      Hosted (valueLinks taken.toList ++ links) k ∧ k.object? id = some o' ∧
      Fielded o o' (w.event? o.kind).toList := by
  let history : History := .nesting
  cases w with
  | assign key v =>
    obtain ⟨k, o', hrun, hk⟩ := hh.assignField hid ho hw key
    exact ⟨none, k, o', run_bind_of_run hrun, hk⟩
  | insert key v =>
    obtain ⟨k, hrun, hk, hobject⟩ := hh.insertField hid ho hw key
    exact ⟨none, k, _, run_bind_of_run hrun, hk, hobject, rfl, rfl⟩
  | remove key => exact hh.removeField hid ho key
  | addGetter key getter =>
    obtain ⟨hagree, hobject⟩ := (hh.agree.runAddGetter (.held hid)
      (.held (hw (List.mem_singleton.mpr rfl))) key).2
    exact ⟨none, _, _, run_bind_of_run rfl, .of_agree hagree, hobject hid o ho, rfl, rfl⟩
  | addSetter key setter =>
    obtain ⟨hagree, hobject⟩ := (hh.agree.runAddSetter (.held hid)
      (.held (hw (List.mem_singleton.mpr rfl))) key).2
    exact ⟨none, _, _, run_bind_of_run rfl, .of_agree hagree, hobject hid o ho, rfl, rfl⟩

end Hosted

/-! ## Runs -/

/-- A run in which something is done to the fields of an object: what the host holds and the heap before
it, what is done, and what is held and the heap after it. What is written is held then. In between
anything may be done that leaves the fields of the object alone. -/
inductive FieldRun (id : NodeId) : List Link → Heap → List FieldWrite → List Link → Heap → Prop
  | nil (links : List Link) (h : Heap) : FieldRun id links h [] links h
  | write {links links' : List Link} {h g k : Heap} {w : FieldWrite} {taken : Option Value}
      {told : List FieldWrite} (hw : w.links ⊆ links) (hrun : (w.perform id).run h = (taken, g))
      (rest : FieldRun id (valueLinks taken.toList ++ links) g told links' k) :
      FieldRun id links h (w :: told) links' k
  | aside {links between links' : List Link} {h g k : Heap} {told : List FieldWrite}
      (hg : Hosted between g) (hid : .object id ∈ between)
      (hsame : ∀ o, h.object? id = some o → ∃ o', g.object? id = some o' ∧ Fielded o o' [])
      (rest : FieldRun id between g told links' k) : FieldRun id links h told links' k

theorem Fielded.trans {o₁ o₂ : Object} {events more : List (FieldEvent Value)}
    (hf : Fielded o o₁ events) (hg : Fielded o₁ o₂ more) : Fielded o o₂ (events ++ more) :=
  ⟨hg.kind.trans hf.kind, by rw [hg.fields, hf.fields, List.foldl_append]⟩

theorem keys_of_object? (ho : h.object? id = some o) :
    h.keys id = o.fields.entries.map Prod.fst := by
  rw [Heap.keys, ho]
  rfl

namespace FieldRun

theorem exists_of_held (id : NodeId) (writes : List FieldWrite) : ∀ (links : List Link) (h : Heap),
    (∀ w ∈ writes, w.links ⊆ links) → ∃ links' k, FieldRun id links h writes links' k := by
  induction writes with
  | nil => exact fun links h _ => ⟨links, h, .nil links h⟩
  | cons w rest ih =>
    intro links h hw
    rcases hrun : (w.perform id).run h with ⟨taken, g⟩
    obtain ⟨links', k, hrest⟩ := ih (valueLinks taken.toList ++ links) g fun x hx =>
      List.Subset.trans (hw x (List.mem_cons_of_mem _ hx)) (List.subset_append_right ..)
    exact ⟨links', k, .write (hw w List.mem_cons_self) hrun hrest⟩

variable (hrun : FieldRun id links h told links' k)

include hrun

/-- **The fields after a run** are what the events of the run make of them. -/
theorem fielded (hh : Hosted links h) (hid : .object id ∈ links) (ho : h.object? id = some o) :
    Hosted links' k ∧ .object id ∈ links' ∧ ∃ o', k.object? id = some o' ∧
      Fielded o o' (told.filterMap (FieldWrite.event? o.kind)) := by
  induction hrun generalizing o with
  | nil => exact ⟨hh, hid, o, ho, rfl, rfl⟩
  | @write links links' h g k w taken told hw hperform rest ih =>
    obtain ⟨taken', g', o₁, hperform', hg, ho₁, hf⟩ := hh.performFieldWrite hid ho hw
    obtain ⟨rfl, rfl⟩ := Prod.mk.inj (hperform.symm.trans hperform')
    obtain ⟨hk, hend, o₂, ho₂, hrest⟩ := ih hg (List.mem_append_right _ hid) ho₁
    refine ⟨hk, hend, o₂, ho₂, ?_⟩
    rw [hf.kind] at hrest
    have hevents : (w :: told).filterMap (FieldWrite.event? o.kind) =
        (w.event? o.kind).toList ++ told.filterMap (FieldWrite.event? o.kind) := by
      rw [List.filterMap_cons]
      cases w.event? o.kind <;> rfl
    rw [hevents]
    exact hf.trans hrest
  | aside hg hid' hsame rest ih =>
    obtain ⟨o₁, ho₁, hf⟩ := hsame o ho
    obtain ⟨hk, hend, o₂, ho₂, hrest⟩ := ih hg hid' ho₁
    rw [hf.kind] at hrest
    exact ⟨hk, hend, o₂, ho₂, hf.trans hrest⟩

/-- **Fields are enumerated in the order of insertion.** Let the host hold an object, and let anything be
done to its fields, in any order, with whatever else is done in between. Then its names and fields are the
one list that the history enumerates. A name with a special meaning is among them only if it was before,
or was inserted and not assigned. Whatever is no event, such as an assignment to such a name or
registering an accessor, leaves the list as it is. -/
theorem enumerates (hh : Hosted links h) (hid : .object id ∈ links) (ho : h.object? id = some o) :
    let events := o.fields.written ++ told.filterMap (FieldWrite.event? o.kind)
    ∃ o', k.object? id = some o' ∧ k.keys id = o'.fields.entries.map Prod.fst ∧
      Enumerates events o'.fields.entries ∧
      (∀ entries, Enumerates events entries → entries = o'.fields.entries) ∧
      (∀ key ∈ k.keys id, ∃! m, InsertedAt events key m) ∧
      (∀ key ∈ k.keys id, key = protoKey ∨ key = "length" ∧ o.kind = .array →
        key ∈ h.keys id ∨ ∃ v, .insert key v ∈ told) ∧
      ∀ (w : FieldWrite) (taken : Option Value) (g : Heap), w.event? o.kind = none →
        w.links ⊆ links' → (w.perform id).run k = (taken, g) →
        g.keys id = k.keys id ∧ ∃ o'', g.object? id = some o'' ∧ o''.fields = o'.fields := by
  intro events
  obtain ⟨hk, hend, o', ho', hf⟩ := hrun.fielded hh hid ho
  have hkeys := keys_of_object? ho'
  have hall : Enumerates events o'.fields.entries := by
    rw [hf.fields]
    exact (Enumerates.written o.fields).apply _
  have hwritten {key : String} (hm : key ∈ k.keys id) : ∃ v, LastWritten events key v := by
    rw [hkeys] at hm
    obtain ⟨⟨name, v⟩, hentry, rfl⟩ := List.mem_map.mp hm
    exact ⟨v, (hall.mem_iff name v).mp hentry⟩
  refine ⟨o', ho', hkeys, hall, fun entries hl => hall.unique hl, fun key hm => ?_,
    fun key hm hspecial => ?_, fun w taken g hw hheld hperform => ?_⟩
  · obtain ⟨v, hv⟩ := hwritten hm
    obtain ⟨m, hm⟩ := hv.exists_insertedAt
    exact ⟨m, hm, fun n hn => hn.unique hm⟩
  · obtain ⟨v, hv⟩ := hwritten hm
    rcases List.mem_append.mp hv.mem with hbefore | hduring
    · obtain ⟨entry, hentry, he⟩ := List.mem_map.mp hbefore
      obtain ⟨rfl, -⟩ := FieldEvent.wrote.inj he
      rw [keys_of_object? ho]
      exact Or.inl (List.mem_map_of_mem hentry)
    · obtain ⟨w, hw, he⟩ := List.mem_filterMap.mp hduring
      rcases FieldWrite.eq_of_event?_wrote he with rfl | ⟨-, hproto, hlength⟩
      · exact Or.inr ⟨v, hw⟩
      · rcases hspecial with hp | ⟨hl, hkind⟩
        · exact absurd hp hproto
        · exact absurd hl (hlength hkind)
  · obtain ⟨taken', g', o'', hperform', -, ho'', hnone⟩ := hk.performFieldWrite hend ho' hheld
    obtain ⟨rfl, rfl⟩ := Prod.mk.inj (hperform.symm.trans hperform')
    rw [hf.kind, hw] at hnone
    refine ⟨?_, o'', ho'', hnone.fields⟩
    rw [keys_of_object? ho'', hkeys, hnone.fields]
    rfl

omit hrun

def twoFields : List Step :=
  [⟨.store (.keep (.object [("b", .integer 1), ("a", .integer 2)])), some "point", none⟩]

/-- A field is added, another overwritten, removed and added again; `__proto__` is assigned and then
inserted. -/
def sevenWrites : List FieldWrite :=
  [.assign "c" (.integer 3), .assign "b" (.integer 4), .remove "b", .assign protoKey .null,
    .assign "b" (.integer 5), .insert protoKey (.integer 6), .assign "a" (.integer 7)]

theorem enumerates_sevenWrites :
    let s := (Session.initial.run twoFields).2
    ∃ links' k, FieldRun 4 s.links s.heap sevenWrites links' k ∧
      k.keys 4 = ["a", "c", "b", protoKey] ∧ ∃ o, k.object? 4 = some o ∧ o.fields.entries =
        [("a", .integer 7), ("c", .integer 3), ("b", .integer 5), (protoKey, .integer 6)] := by
  intro s
  have hheld : Link.object 4 ∈ s.links := by decide +kernel
  have hobject : (s.heap.object? 4).map (fun o => (o.fields.entries, o.kind)) =
      some ([("b", .integer 1), ("a", .integer 2)], .ordinary) := by decide +kernel
  obtain ⟨o, ho, hdata⟩ := Option.map_eq_some_iff.mp hobject
  obtain ⟨hentries, hkind⟩ := Prod.mk.inj hdata
  have hfields : o.fields = ⟨[("b", .integer 1), ("a", .integer 2)], by decide⟩ :=
    Fields.eq_of_entries_eq hentries
  obtain ⟨links', k, hrun⟩ := exists_of_held 4 sevenWrites s.links s.heap (by decide)
  obtain ⟨o', ho', hkeys, -, hunique, -⟩ :=
    hrun.enumerates (Session.hosted twoFields) hheld ho
  have hend := hunique _ ((Enumerates.written _).apply _)
  rw [hkind, hfields] at hend
  have hlist : o'.fields.entries =
      [("a", .integer 7), ("c", .integer 3), ("b", .integer 5), (protoKey, .integer 6)] :=
    hend.symm.trans (by decide +kernel)
  refine ⟨links', k, hrun, ?_, o', ho', hlist⟩
  rw [hkeys, hlist]
  rfl

end FieldRun

end Heap

end ScriptCore
