import ScriptCore.Proofs.Agreement.Showing
import ScriptCore.Session.Functions
import ScriptCore.Session.Objects
import ScriptCore.Session.Values

/-!
# Answers about values on heaps that match

The facts that a step answers about values it can see, host types and JSON among them, are the same
on two heaps that match.
-/

namespace ScriptCore

/-! ## Lists of results -/

section Results

variable {α β ε : Type} {f g : α → Except ε β} {xs : List α} {ys : List β}

theorem mapM_congr (he : ∀ x ∈ xs, f x = g x) : xs.mapM f = xs.mapM g := by
  induction xs with
  | nil => rfl
  | cons x xs ih =>
    rw [List.mapM_cons, List.mapM_cons, he x (List.mem_cons_self ..),
      ih fun y hy => he y (List.mem_cons_of_mem x hy)]

theorem mapM_cases (xs : List α) :
    (∃ ys, xs.mapM f = .ok ys ∧ ∀ y ∈ ys, ∃ x ∈ xs, f x = .ok y) ∨
      ∃ e, xs.mapM f = .error e ∧ ∃ x ∈ xs, f x = .error e := by
  induction xs with
  | nil => exact Or.inl ⟨[], rfl, fun y hy => absurd hy List.not_mem_nil⟩
  | cons x xs ih =>
    rw [List.mapM_cons]
    cases hx : f x with
    | error e => exact Or.inr ⟨e, rfl, x, List.mem_cons_self .., hx⟩
    | ok y =>
      rcases ih with ⟨ys, hys, hall⟩ | ⟨e, he, a, ha, hfa⟩
      · rw [hys]
        refine Or.inl ⟨y :: ys, rfl, fun z hz => ?_⟩
        rcases List.mem_cons.mp hz with rfl | hz
        · exact ⟨x, List.mem_cons_self .., hx⟩
        · obtain ⟨a, ha, hfa⟩ := hall z hz
          exact ⟨a, List.mem_cons_of_mem x ha, hfa⟩
      · rw [he]
        exact Or.inr ⟨e, rfl, a, List.mem_cons_of_mem x ha, hfa⟩

/-- If every member comes to its own result or else to one and the same error, all come to their
results or else to that error. -/
theorem mapM_of_forall₂ {e : ε} {p : β → Prop} [DecidablePred p]
    (hf : List.Forall₂ (fun x y => f x = if p y then .ok y else .error e) xs ys) :
    xs.mapM f = if ∀ y ∈ ys, p y then .ok ys else .error e := by
  induction hf with
  | nil => rfl
  | @cons x y xs ys hx _ ih =>
    rw [List.mapM_cons, hx, ih]
    by_cases hy : p y
    · by_cases hys : ∀ y ∈ ys, p y
      · rw [if_pos hy, if_pos hys, if_pos (List.forall_mem_cons.mpr ⟨hy, hys⟩)]
        rfl
      · rw [if_pos hy, if_neg hys, if_neg fun hall => hys (List.forall_mem_cons.mp hall).2]
        rfl
    · rw [if_neg hy, if_neg fun hall => hy (List.forall_mem_cons.mp hall).1]
      rfl

theorem forall_of_mapM {p : β → Prop} (hf : ∀ x ∈ xs, ∀ y, f x = .ok y → p y)
    (hys : xs.mapM f = .ok ys) : ∀ y ∈ ys, p y := by
  intro y hy
  rcases mapM_cases (f := f) xs with ⟨zs, hzs, hall⟩ | ⟨e, he, _⟩
  · obtain rfl := Except.ok.inj (hys.symm.trans hzs)
    obtain ⟨x, hx, hfx⟩ := hall y hy
    exact hf x hx y hfx
  · rw [hys] at he
    cases he

theorem ok_of_map {g : α → β} {r : Except ε α} {y : β} (hy : r.map g = .ok y) :
    ∃ x, r = .ok x ∧ g x = y := by
  cases r with
  | ok x => exact ⟨x, rfl, Except.ok.inj hy⟩
  | error e => cases hy

theorem error_of_map {g : α → β} {r : Except ε α} {e : ε} (he : r.map g = .error e) :
    r = .error e := by
  cases r with
  | ok a => cases he
  | error e' => exact congrArg Except.error (Except.error.inj he)

end Results

namespace Heap

/-- Whether every object in a host type can be seen. -/
inductive SeesConverted (h : Heap) (links : List Link) : Converted → Prop
  | any {v : Value} (hv : h.SeesValue links v) : SeesConverted h links (.any v)
  | boolean (b : Bool) : SeesConverted h links (.boolean b)
  | double (d : Double) : SeesConverted h links (.double d)
  | integer (n : Int) : SeesConverted h links (.integer n)
  | text (s : String) : SeesConverted h links (.text s)
  | object {id : NodeId} (hs : h.Sees links (.object id)) : SeesConverted h links (.object (some id))
  | absent : SeesConverted h links (.object none)
  | list {items : List Converted} (hall : ∀ c ∈ items, SeesConverted h links c) :
      SeesConverted h links (.list items)

def SeesError (h : Heap) (links : List Link) (e : Error) : Prop :=
  ∀ v, e.value? = some v → h.SeesValue links v

variable {h k : Heap} {links : List Link} {v : Value} {id : NodeId}

theorem seesConverted_object {o : Option NodeId}
    (hs : ∀ id, o = some id → h.Sees links (.object id)) :
    h.SeesConverted links (.object o) := by
  cases o with
  | none => exact .absent
  | some id => exact .object (hs id rfl)

theorem SeesValue.of_id? (hv : h.SeesValue links v) (hid : v.id? = some id) :
    h.Sees links (.object id) := by
  cases v with
  | object x => exact Option.some.inj hid ▸ hv.object
  | _ => cases hid

theorem seesConverted_convert (target : Target) : ∀ v : Value, h.SeesValue links v →
    h.SeesConverted links (h.convert target v) := by
  induction target with
  | list of ih =>
    intro v hv
    rw [convert]
    refine .list fun c hc => ?_
    obtain ⟨e, he, rfl⟩ := List.mem_map.mp hc
    refine ih e ?_
    cases hes : h.elements? v with
    | none => simp [hes] at he
    | some elements => exact Matches.sees_elements? hv hes e (by simpa [hes] using he)
  | any => exact fun v hv => .any hv
  | object | optionalObject => exact fun v hv => seesConverted_object fun id hid => hv.of_id? hid
  | boolean => exact fun v hv => .boolean _
  | double => exact fun v hv => .double _
  | text => exact fun v hv => .text _
  | int64 | int32 | uint32 | size => exact fun v hv => .integer _

/-- What a checked conversion comes to: a host type or an error in which all can be seen. -/
def SeesChecked (h : Heap) (links : List Link) : Except Error Converted → Prop
  | .ok c => h.SeesConverted links c
  | .error e => h.SeesError links e

theorem seesError_invalidConversion (hv : h.SeesValue links v) (target : String) :
    h.SeesError links (.invalidConversion v target) := by
  intro w hw
  obtain rfl := Option.some.inj hw
  exact hv

theorem seesChecked_checkedWithin (hv : h.SeesValue links v) (target : String)
    (least greatest : Int) : h.SeesChecked links (checkedWithin v target least greatest) := by
  rw [checkedWithin, checkedInteger]
  cases v.numeric? with
  | none => exact seesError_invalidConversion hv target
  | some n =>
    show h.SeesChecked links (if _ then _ else _)
    split
    · exact .integer _
    · exact seesError_invalidConversion hv target

theorem seesChecked_check (target : Target) : ∀ v : Value, h.SeesValue links v →
    h.SeesChecked links (h.check target v) := by
  induction target with
  | list of ih =>
    intro v hv
    rw [check]
    cases hes : h.elements? v with
    | none => exact seesError_invalidConversion hv "array"
    | some elements =>
      rcases mapM_cases (f := fun e => h.check of e) elements.toList with
        ⟨ys, hys, hall⟩ | ⟨e, he, x, hx, hfx⟩
      · dsimp only
        rw [hys]
        refine .list fun c hc => ?_
        obtain ⟨x, hx, hfx⟩ := hall c hc
        have := ih x (Matches.sees_elements? hv hes x hx)
        rwa [hfx] at this
      · dsimp only
        rw [he]
        have := ih x (Matches.sees_elements? hv hes x hx)
        rwa [hfx] at this
  | any => exact fun v hv => .any hv
  | boolean => exact fun v hv => .boolean _
  | text => exact fun v hv => .text _
  | double =>
    intro v hv
    rw [check, checkedDouble]
    cases v.numeric? with
    | none => exact seesError_invalidConversion hv "f64"
    | some n => exact .double _
  | int64 =>
    intro v hv
    rw [check, checkedInteger]
    cases v.numeric? with
    | none => exact seesError_invalidConversion hv "i64"
    | some n => exact .integer _
  | int32 | uint32 | size => exact fun v hv => seesChecked_checkedWithin hv _ _ _
  | object =>
    intro v hv
    rw [check]
    cases hid : v.id? with
    | none => exact seesError_invalidConversion hv "object"
    | some id => exact .object (hv.of_id? hid)
  | optionalObject =>
    intro v hv
    cases v with
    | null | undefined => exact .absent
    | object id => exact .object hv.object
    | _ => exact seesError_invalidConversion hv "object or null"

namespace Matches

variable {w : Value} (ha : Matches links h k)

include ha

theorem check_eq (target : Target) : ∀ v : Value, h.SeesValue links v →
    k.check target v = h.check target v := by
  induction target with
  | list of ih =>
    intro v hv
    rw [check, check, ha.elements?_eq hv]
    cases hes : h.elements? v with
    | none => rfl
    | some elements =>
      exact congrArg (Except.map Converted.list)
        (mapM_congr fun e hm => ih e (sees_elements? hv hes e hm))
  | boolean =>
    intro v hv
    rw [check, check, ha.truth_eq hv]
  | text =>
    intro v hv
    rw [check, check, ha.toText_eq hv]
  | optionalObject =>
    intro v _
    cases v <;> rw [check, check] <;> simp
  | any | double | int64 | int32 | uint32 | size | object =>
    intro v _
    rw [check, check]

/-! ## Snapshots -/

theorem snapshotWithin_of_elements {room : Nat}
    (helements : ∀ less, room = less + 1 → ∀ (enclosing : List NodeId) (v : Value),
      h.SeesValue links v → k.snapshotWithin less enclosing v = h.snapshotWithin less enclosing v)
    (enclosing : List NodeId) (hv : h.SeesValue links v) :
    k.snapshotWithin room enclosing v = h.snapshotWithin room enclosing v := by
  cases v with
  | object id =>
    obtain ⟨o, ho⟩ := ha.exists_object hv.object
    rw [snapshotWithin, snapshotWithin, ha.object?_eq hv.object, ho]
    dsimp only
    cases he : o.exotic with
    | string text => rfl
    | function f => rfl
    | array elements =>
      cases enclosing.idxOf? id with
      | some level => rfl
      | none =>
        cases room with
        | zero => rfl
        | succ room =>
          refine congrArg Snapshot.array (List.map_congr_left fun e hm => ?_)
          exact helements room rfl _ e (hv.object.element ho he hm)
    | ordinary =>
      cases enclosing.idxOf? id with
      | some level => rfl
      | none =>
        cases room with
        | zero => rfl
        | succ room =>
          refine congrArg Snapshot.object (List.map_congr_left fun e hm => ?_)
          refine congrArg (e.1, ·) (helements room rfl _ e.2 (hv.object.field ho ?_))
          exact Fields.mem_values_iff.mpr ⟨e.1, hm⟩
  | _ => simp only [snapshotWithin]

theorem snapshotWithin_eq (room : Nat) : ∀ (enclosing : List NodeId) (v : Value),
    h.SeesValue links v → k.snapshotWithin room enclosing v = h.snapshotWithin room enclosing v := by
  induction room with
  | zero =>
    intro enclosing v hv
    exact ha.snapshotWithin_of_elements (fun less hl => by omega) enclosing hv
  | succ room ih =>
    intro enclosing v hv
    refine ha.snapshotWithin_of_elements (fun less hl => ?_) enclosing hv
    obtain rfl : room = less := by omega
    exact ih

theorem snapshot_eq (hv : h.SeesValue links v) : k.snapshot v = h.snapshot v := by
  rw [snapshot, snapshot]
  exact ha.snapshotWithin_eq Snapshot.maxDepth [] v hv

theorem snapshot?_eq {x : Option Value} (hx : ∀ v, x = some v → h.SeesValue links v) :
    k.snapshot? x = h.snapshot? x := by
  cases x with
  | none => rw [snapshot?, snapshot?, Option.map_none, Option.map_none]
  | some v =>
    rw [snapshot?, snapshot?, Option.map_some, Option.map_some, ha.snapshot_eq (hx v rfl)]

theorem map_snapshot_eq {vs : List Value} (hvs : ∀ v ∈ vs, h.SeesValue links v) :
    vs.map k.snapshot = vs.map h.snapshot :=
  List.map_congr_left fun v hm => ha.snapshot_eq (hvs v hm)

/-! ## JSON -/

theorem isOmitted_eq (hv : h.SeesValue links v) : k.isOmitted v = h.isOmitted v := by
  rw [isOmitted, isOmitted, ha.isFunction_eq hv]

theorem toJsonWithin_of_elements {room : Nat}
    (helements : ∀ less, room = less + 1 → ∀ (enclosing : List NodeId) (v : Value),
      h.SeesValue links v → k.toJsonWithin less enclosing v = h.toJsonWithin less enclosing v)
    (enclosing : List NodeId) (hv : h.SeesValue links v) :
    k.toJsonWithin room enclosing v = h.toJsonWithin room enclosing v := by
  cases v with
  | object id =>
    obtain ⟨o, ho⟩ := ha.exists_object hv.object
    rw [toJsonWithin, toJsonWithin, ha.object?_eq hv.object, ho]
    dsimp only
    cases he : o.exotic with
    | string text => rfl
    | function f => rfl
    | array elements =>
      cases room with
      | zero => rfl
      | succ room =>
        refine if_congr Iff.rfl rfl (congrArg (Except.map Json.array) (mapM_congr fun e hm => ?_))
        exact helements room rfl _ e (hv.object.element ho he hm)
    | ordinary =>
      have hfield {e : String × Value} (hm : e ∈ o.fields.entries) : h.SeesValue links e.2 :=
        hv.object.field ho (Fields.mem_values_iff.mpr ⟨e.1, hm⟩)
      cases room with
      | zero => rfl
      | succ room =>
        have hkept : (o.fields.entries.filter fun e => !k.isOmitted e.2) =
            o.fields.entries.filter fun e => !h.isOmitted e.2 :=
          List.filter_congr fun e hm => congrArg (!·) (ha.isOmitted_eq (hfield hm))
        dsimp only
        rw [hkept]
        refine if_congr Iff.rfl rfl (congrArg (Except.map _) (mapM_congr fun e hm => ?_))
        rw [helements room rfl _ e.2 (hfield (List.mem_of_mem_filter hm))]
  | _ => simp only [toJsonWithin]

theorem toJsonWithin_eq (room : Nat) : ∀ (enclosing : List NodeId) (v : Value),
    h.SeesValue links v → k.toJsonWithin room enclosing v = h.toJsonWithin room enclosing v := by
  induction room with
  | zero =>
    intro enclosing v hv
    exact ha.toJsonWithin_of_elements (fun less hl => by omega) enclosing hv
  | succ room ih =>
    intro enclosing v hv
    refine ha.toJsonWithin_of_elements (fun less hl => ?_) enclosing hv
    obtain rfl : room = less := by omega
    exact ih

theorem toJson_eq (hv : h.SeesValue links v) : k.toJson v = h.toJson v := by
  rw [toJson, toJson]
  exact ha.toJsonWithin_eq Json.maxDepth [] v hv

omit ha in
theorem value?_of_mapM {α β : Type} {f : α → Except Error β} {xs : List α} {e : Error}
    (hx : ∀ x ∈ xs, ∀ e, f x = .error e → e.value? = none) (he : xs.mapM f = .error e) :
    e.value? = none := by
  rcases mapM_cases (f := f) xs with ⟨ys, hys, _⟩ | ⟨e', he', x, hm, hfx⟩
  · rw [hys] at he
    cases he
  · rw [he'] at he
    obtain rfl := Except.error.inj he
    exact hx x hm e' hfx

omit ha in
theorem value?_of_elements {room : Nat}
    (helements : ∀ less, room = less + 1 → ∀ (enclosing : List NodeId) (v : Value) (e : Error),
      h.toJsonWithin less enclosing v = .error e → e.value? = none)
    (enclosing : List NodeId) (v : Value) (e : Error)
    (he : h.toJsonWithin room enclosing v = .error e) : e.value? = none := by
  cases v with
  | object id =>
    rw [toJsonWithin] at he
    cases ho : h.object? id with
    | none =>
      rw [ho] at he
      cases he
    | some o =>
      rw [ho] at he
      dsimp only at he
      cases hx : o.exotic with
      | string text => simp [hx] at he
      | function f => simp [hx] at he
      | array elements =>
        rw [hx] at he
        cases room with
        | zero => exact Except.error.inj he ▸ rfl
        | succ room =>
          dsimp only at he
          split at he
          · exact Except.error.inj he ▸ rfl
          · exact value?_of_mapM (fun x _ => helements room rfl _ x) (error_of_map he)
      | ordinary =>
        rw [hx] at he
        cases room with
        | zero => exact Except.error.inj he ▸ rfl
        | succ room =>
          dsimp only at he
          split at he
          · exact Except.error.inj he ▸ rfl
          · refine value?_of_mapM (fun x _ e hx => ?_) (error_of_map he)
            exact helements room rfl _ x.2 e (error_of_map hx)
  | _ => simp [toJsonWithin] at he

omit ha in
theorem value?_of_toJsonWithin (room : Nat) : ∀ (enclosing : List NodeId) (v : Value) (e : Error),
    h.toJsonWithin room enclosing v = .error e → e.value? = none := by
  induction room with
  | zero =>
    intro enclosing v e he
    exact value?_of_elements (fun less hl => by omega) enclosing v e he
  | succ room ih =>
    intro enclosing v e he
    refine value?_of_elements (fun less hl => ?_) enclosing v e he
    obtain rfl : room = less := by omega
    exact ih

/-! ## Facts -/

theorem convertedSnapshot_eq {c : Converted} (hc : h.SeesConverted links c) :
    Facts.convertedSnapshot k c = Facts.convertedSnapshot h c := by
  induction hc with
  | any hv => simp only [Facts.convertedSnapshot, ha.snapshot_eq hv]
  | object hs => simp only [Facts.convertedSnapshot, ha.snapshot_eq hs.value]
  | list _ ih =>
    simp only [Facts.convertedSnapshot]
    exact congrArg Snapshot.array (List.map_congr_left fun c hm => ih c hm)
  | _ => simp only [Facts.convertedSnapshot]

theorem predicates_eq (hv : h.SeesValue links v) : Facts.predicates k v = Facts.predicates h v := by
  simp only [Facts.predicates, ha.isString_eq hv, ha.isArray_eq hv, ha.isFunction_eq hv]

theorem inspection_eq (hv : h.SeesValue links v) : Facts.inspection k v = Facts.inspection h v := by
  rw [Facts.inspection, Facts.inspection, ha.display_eq hv, ha.displayNested_eq hv, ha.toText_eq hv,
    ha.typeName_eq hv, ha.truth_eq hv, ha.toNumber_eq hv, ha.text?_eq hv, ha.kind?_eq hv]

theorem description_eq (hs : h.Sees links (.object id)) (o : Object) :
    Facts.description k id o = Facts.description h id o := by
  rw [Facts.description, Facts.description, ha.displayNested_eq hs.value]

theorem payloadFacts_eq {p : Option Payload}
    (hp : ∀ q, p = some q → ∀ l ∈ q.links, h.Sees links l) :
    Facts.payload k p = Facts.payload h p := by
  cases p with
  | none => rfl
  | some q =>
    cases q with
    | value v =>
      have hv : h.SeesValue links v := hp _ rfl
      simp only [Facts.payload, ha.snapshot_eq hv]
    | _ => rfl

theorem accessors_eq (hs : h.Sees links (.object id)) (key : String) :
    Facts.accessors k id key = Facts.accessors h id key := by
  rw [Facts.accessors, Facts.accessors, ha.findGetter?_eq hs, ha.findSetter?_eq hs]

theorem closure_eq (kind : ClosureKind) (hv : h.SeesValue links v) :
    FunctionRequest.closure k kind v = FunctionRequest.closure h kind v := by
  cases kind with
  | counter => rw [FunctionRequest.closure, FunctionRequest.closure, ha.toInteger_eq hv]
  | _ => rfl

end Matches

end Heap

end ScriptCore
