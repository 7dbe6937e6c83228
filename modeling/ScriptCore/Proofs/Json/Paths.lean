import Mathlib
import ScriptCore.Json.Bridge
import ScriptCore.Proofs.Agreement.Answers
import ScriptCore.Proofs.Fields
import ScriptCore.Session.Values

/-!
# Which values become JSON

A value becomes JSON by following the elements of arrays and those fields of ordinary objects that
are neither undefined nor functions. Whether that comes to an end is decided by the **paths** from
the value (`Heap.Path`): a path is the list of the containers that stand inside one another, the
outermost first, and it goes on as long as there is a container to follow, so a container that
contains itself has endlessly many paths.

While a value is written out, the containers that enclose it are on the path to it, and it is an
error to come to one of them again. `Heap.ok_of_toJsonWithin` and `Heap.error_of_toJsonWithin` say
what the answer tells of the paths, both by induction on the room there is for more containers, with
the enclosing ones general. Together they are `Heap.toJson_decides`.
-/

namespace ScriptCore

section Results

variable {α β ε : Type} {f : α → Except ε β} {xs : List α} {ys : List β}

theorem ok_of_mapM_cons {x : α} (hys : (x :: xs).mapM f = .ok ys) :
    ∃ y rest, f x = .ok y ∧ xs.mapM f = .ok rest ∧ ys = y :: rest := by
  rw [List.mapM_cons] at hys
  cases hx : f x with
  | error e =>
    rw [hx] at hys
    cases hys
  | ok y =>
    cases hxs : xs.mapM f with
    | error e =>
      rw [hx, hxs] at hys
      cases hys
    | ok rest =>
      rw [hx, hxs] at hys
      exact ⟨y, rest, rfl, rfl, (Except.ok.inj hys).symm⟩

theorem forall₂_of_mapM {p : α → β → Prop} (hf : ∀ x ∈ xs, ∀ y, f x = .ok y → p x y)
    (hys : xs.mapM f = .ok ys) : List.Forall₂ p xs ys := by
  induction xs generalizing ys with
  | nil =>
    obtain rfl := Except.ok.inj hys
    exact .nil
  | cons x xs ih =>
    obtain ⟨y, rest, hy, hrest, rfl⟩ := ok_of_mapM_cons hys
    exact .cons (hf x List.mem_cons_self y hy)
      (ih (fun z hz => hf z (List.mem_cons_of_mem x hz)) hrest)

theorem ok_of_mem_of_mapM (hys : xs.mapM f = .ok ys) : ∀ x ∈ xs, ∃ y, f x = .ok y := by
  induction xs generalizing ys with
  | nil => exact fun x hx => absurd hx List.not_mem_nil
  | cons x xs ih =>
    obtain ⟨y, rest, hy, hrest, rfl⟩ := ok_of_mapM_cons hys
    exact List.forall_mem_cons.mpr ⟨⟨y, hy⟩, ih hrest⟩

end Results

namespace Heap

variable {h : Heap} {room : Nat} {enclosing ids : List NodeId} {id last : NodeId} {v w : Value}
  {o : Object} {json : Json} {e : Error}

/-! ## Paths -/

/-- An object that is written out with other values inside it: an array or an ordinary object. -/
def IsContainer (h : Heap) (id : NodeId) : Prop :=
  ∃ o, h.object? id = some o ∧ (o.exotic = .ordinary ∨ ∃ elements, o.exotic = .array elements)

/-- What is written out inside a container: the elements of an array, and of an ordinary object the
fields that are neither undefined nor functions. -/
inductive Encloses (h : Heap) (id : NodeId) : Value → Prop
  | element {o : Object} {elements : Array Value} {v : Value} (ho : h.object? id = some o)
      (hx : o.exotic = .array elements) (hv : v ∈ elements) : Encloses h id v
  | field {o : Object} {key : String} {v : Value} (ho : h.object? id = some o)
      (hx : o.exotic = .ordinary) (hv : o.fields.get? key = some v) (hu : v ≠ .undefined)
      (hf : h.isFunction v = false) : Encloses h id v

/-- A **path** from a value: containers inside one another, the value itself the first. -/
inductive Path (h : Heap) : Value → List NodeId → Prop
  | single {id : NodeId} (hc : h.IsContainer id) : Path h (.object id) [id]
  | cons {id : NodeId} {v : Value} {ids : List NodeId} (hf : h.Encloses id v) (hp : Path h v ids) :
      Path h (.object id) (id :: ids)

theorem Encloses.isContainer (hf : h.Encloses id v) : h.IsContainer id := by
  cases hf with
  | element ho hx hv => exact ⟨_, ho, Or.inr ⟨_, hx⟩⟩
  | field ho hx hv hu hf => exact ⟨_, ho, Or.inl hx⟩

theorem Path.of_leaf (hp : h.Path v ids) : ∃ id, v = .object id ∧ h.IsContainer id := by
  cases hp with
  | single hc => exact ⟨_, rfl, hc⟩
  | cons hf hp => exact ⟨_, rfl, hf.isContainer⟩

theorem isOmitted_eq_false_iff : h.isOmitted v = false ↔ v ≠ .undefined ∧ h.isFunction v = false := by
  rw [isOmitted, Bool.or_eq_false_iff, beq_eq_false_iff_ne]

theorem encloses_array_iff {elements : Array Value} (ho : h.object? id = some o)
    (hx : o.exotic = .array elements) : h.Encloses id v ↔ v ∈ elements.toList := by
  rw [Array.mem_toList_iff]
  refine ⟨fun hf => ?_, .element ho hx⟩
  cases hf with
  | element ho' hx' hv =>
    obtain rfl := Option.some.inj (ho.symm.trans ho')
    obtain rfl := Exotic.array.inj (hx.symm.trans hx')
    exact hv
  | field ho' hx' =>
    obtain rfl := Option.some.inj (ho.symm.trans ho')
    rw [hx] at hx'
    cases hx'

def keptFields (h : Heap) (o : Object) : List (String × Value) :=
  o.fields.entries.filter fun (_, e) => !h.isOmitted e

theorem encloses_ordinary_iff (ho : h.object? id = some o) (hx : o.exotic = .ordinary) :
    h.Encloses id v ↔ ∃ key, (key, v) ∈ h.keptFields o := by
  constructor
  · intro hf
    cases hf with
    | element ho' hx' =>
      obtain rfl := Option.some.inj (ho.symm.trans ho')
      rw [hx] at hx'
      cases hx'
    | @field o' key v ho' hx' hv hu hf =>
      obtain rfl := Option.some.inj (ho.symm.trans ho')
      refine ⟨key, List.mem_filter.mpr ⟨Fields.get?_eq_some_iff.mp hv, ?_⟩⟩
      exact (Bool.not_eq_true' _).mpr (isOmitted_eq_false_iff.mpr ⟨hu, hf⟩)
  · rintro ⟨key, hm⟩
    obtain ⟨hm, hk⟩ := List.mem_filter.mp hm
    obtain ⟨hu, hf⟩ := isOmitted_eq_false_iff.mp ((Bool.not_eq_true' _).mp hk)
    exact .field ho hx (Fields.get?_eq_some_iff.mpr hm) hu hf

/-! ## What a value becomes -/

/-- What a value **becomes**. Every place where a value stands is written out on its own, also where
an object stands in several places. -/
inductive Becomes (h : Heap) : Value → Json → Prop
  | undefined : Becomes h .undefined .null
  | null : Becomes h .null .null
  | boolean (b : Bool) : Becomes h (.boolean b) (.boolean b)
  | integer (n : Int64) : Becomes h (.integer n) (.integer n)
  | double (d : Double) : Becomes h (.double d) (if d.isFinite then .double d else .null)
  | absent {id : NodeId} (ho : h.object? id = none) : Becomes h (.object id) .null
  | string {id : NodeId} {o : Object} {text : String} (ho : h.object? id = some o)
      (hx : o.exotic = .string text) : Becomes h (.object id) (.string text)
  | function {id : NodeId} {o : Object} {f : Callable} (ho : h.object? id = some o)
      (hx : o.exotic = .function f) : Becomes h (.object id) .null
  | array {id : NodeId} {o : Object} {elements : Array Value} {items : List Json}
      (ho : h.object? id = some o) (hx : o.exotic = .array elements)
      (hi : List.Forall₂ (Becomes h) elements.toList items) : Becomes h (.object id) (.array items)
  | object {id : NodeId} {o : Object} {entries : List (String × Json)}
      (ho : h.object? id = some o) (hx : o.exotic = .ordinary)
      (hn : (h.keptFields o).map Prod.fst = entries.map Prod.fst)
      (he : List.Forall₂ (Becomes h) ((h.keptFields o).map Prod.snd) (entries.map Prod.snd)) :
      Becomes h (.object id) (.object (Json.sortEntries entries))

/-! ## One container -/

/-- What is **no container** becomes JSON wherever it stands. -/
theorem toJsonWithin_leaf (hv : ∀ id, v = .object id → ¬h.IsContainer id) (room : Nat)
    (enclosing : List NodeId) :
    ∃ json, h.Becomes v json ∧ h.toJsonWithin room enclosing v = .ok json := by
  cases v with
  | undefined => exact ⟨_, .undefined, by rw [toJsonWithin]⟩
  | null => exact ⟨_, .null, by rw [toJsonWithin]⟩
  | boolean b => exact ⟨_, .boolean b, by rw [toJsonWithin]⟩
  | integer n => exact ⟨_, .integer n, by rw [toJsonWithin]⟩
  | double d => exact ⟨_, .double d, by rw [toJsonWithin]⟩
  | object id =>
    cases ho : h.object? id with
    | none => exact ⟨_, .absent ho, by rw [toJsonWithin, ho]⟩
    | some o =>
      cases hx : o.exotic with
      | ordinary => exact absurd ⟨o, ho, Or.inl hx⟩ (hv id rfl)
      | array elements => exact absurd ⟨o, ho, Or.inr ⟨elements, hx⟩⟩ (hv id rfl)
      | string text => exact ⟨_, .string ho hx, by simp only [toJsonWithin, ho, hx]⟩
      | function f => exact ⟨_, .function ho hx, by simp only [toJsonWithin, ho, hx]⟩

/-- Without room, a container is **too deep**. -/
theorem toJsonWithin_zero (hc : h.IsContainer id) :
    h.toJsonWithin 0 enclosing (.object id) = .error (.nestingTooDeep Json.maxDepth) := by
  obtain ⟨o, ho, hx | ⟨elements, hx⟩⟩ := hc <;> simp only [toJsonWithin, ho, hx]

/-- Inside itself, a container is **cyclic**. -/
theorem toJsonWithin_of_mem (hc : h.IsContainer id) (hm : id ∈ enclosing) :
    h.toJsonWithin (room + 1) enclosing (.object id) = .error .cyclicStructure := by
  obtain ⟨o, ho, hx | ⟨elements, hx⟩⟩ := hc <;>
    simp only [toJsonWithin, ho, hx, List.contains_iff_mem.mpr hm, if_true]

/-- What a container comes to when the values inside it come to what `inner` says: it fails as one of
them does, or all of them become JSON, and so does the container. -/
inductive Assembled (h : Heap) (id : NodeId) (inner : Value → Except Error Json) :
    Except Error Json → Prop
  | failed {v : Value} {e : Error} (hv : h.Encloses id v) (he : inner v = .error e) :
      Assembled h id inner (.error e)
  | done {json : Json} (hok : ∀ v, h.Encloses id v → ∃ part, inner v = .ok part)
      (hb : (∀ v part, h.Encloses id v → inner v = .ok part → h.Becomes v part) →
        h.Becomes (.object id) json) : Assembled h id inner (.ok json)

theorem assembled_array {elements : Array Value} {inner : Value → Except Error Json}
    (ho : h.object? id = some o) (hx : o.exotic = .array elements) :
    h.Assembled id inner ((elements.toList.mapM inner).map .array) := by
  have hinside {v : Value} (hv : v ∈ elements.toList) : h.Encloses id v :=
    (encloses_array_iff ho hx).mpr hv
  rcases mapM_cases (f := inner) elements.toList with ⟨items, hitems, -⟩ | ⟨e, he, v, hv, hve⟩
  · rw [hitems]
    refine .done (fun v hv => ?_) fun hparts => .array ho hx ?_
    · exact ok_of_mem_of_mapM hitems v ((encloses_array_iff ho hx).mp hv)
    · exact forall₂_of_mapM (fun v hv part => hparts v part (hinside hv)) hitems
  · rw [he]
    exact .failed (hinside hv) hve

theorem assembled_ordinary {inner : Value → Except Error Json} (ho : h.object? id = some o)
    (hx : o.exotic = .ordinary) :
    h.Assembled id inner (((h.keptFields o).mapM fun p : String × Value =>
      (inner p.2).map fun json => (p.1, json)).map fun entries =>
        .object (Json.sortEntries entries)) := by
  have hinside {p : String × Value} (hp : p ∈ h.keptFields o) : h.Encloses id p.2 :=
    (encloses_ordinary_iff ho hx).mpr ⟨p.1, hp⟩
  rcases mapM_cases (f := fun p : String × Value => (inner p.2).map fun json => (p.1, json))
    (h.keptFields o) with ⟨entries, hentries, -⟩ | ⟨e, he, p, hp, hpe⟩
  · rw [hentries]
    refine .done (fun v hv => ?_) fun hparts => ?_
    · obtain ⟨key, hm⟩ := (encloses_ordinary_iff ho hx).mp hv
      obtain ⟨_, hy⟩ := ok_of_mem_of_mapM hentries (key, v) hm
      obtain ⟨part, hpart, -⟩ := ok_of_map hy
      exact ⟨part, hpart⟩
    · have hall : List.Forall₂ (fun p q => p.1 = q.1 ∧ h.Becomes p.2 q.2) (h.keptFields o) entries := by
        refine forall₂_of_mapM (fun p hp q hq => ?_) hentries
        obtain ⟨part, hpart, rfl⟩ := ok_of_map hq
        exact ⟨rfl, hparts p.2 part (hinside hp) hpart⟩
      refine .object ho hx ?_ ?_
      · rw [← List.forall₂_eq_eq_eq, List.forall₂_map_left_iff, List.forall₂_map_right_iff]
        exact hall.imp fun _ _ hpq => hpq.1
      · rw [List.forall₂_map_left_iff, List.forall₂_map_right_iff]
        exact hall.imp fun _ _ hpq => hpq.2
  · rw [he]
    exact .failed (hinside hp) (error_of_map hpe)

theorem assembled_toJsonWithin (hc : h.IsContainer id) (hm : id ∉ enclosing) :
    h.Assembled id (h.toJsonWithin room (id :: enclosing))
      (h.toJsonWithin (room + 1) enclosing (.object id)) := by
  have hcontains : enclosing.contains id = false := by simpa using hm
  obtain ⟨o, ho, hx | ⟨elements, hx⟩⟩ := hc
  all_goals simp only [toJsonWithin, ho, hx, hcontains, Bool.false_eq_true, if_false]
  · exact assembled_ordinary ho hx
  · exact assembled_array ho hx

/-- The ways in which writing a value out ends, with `r` for what it comes to. -/
inductive WrittenOut (h : Heap) (enclosing : List NodeId) : Nat → Value → Except Error Json → Prop
  | leaf {room : Nat} {v : Value} {json : Json} (hp : ∀ ids, ¬h.Path v ids)
      (hb : h.Becomes v json) : WrittenOut h enclosing room v (.ok json)
  | tooDeep {id : NodeId} (hc : h.IsContainer id) :
      WrittenOut h enclosing 0 (.object id) (.error (.nestingTooDeep Json.maxDepth))
  | cyclic {room : Nat} {id : NodeId} (hc : h.IsContainer id) (hm : id ∈ enclosing) :
      WrittenOut h enclosing (room + 1) (.object id) (.error .cyclicStructure)
  | container {room : Nat} {id : NodeId} {r : Except Error Json} (hc : h.IsContainer id)
      (hm : id ∉ enclosing) (hr : h.Assembled id (h.toJsonWithin room (id :: enclosing)) r) :
      WrittenOut h enclosing (room + 1) (.object id) r

/-- **One value**: the depth is looked at before the enclosing containers are, and only then what is
inside. -/
theorem writtenOut_toJsonWithin (h : Heap) (enclosing : List NodeId) (room : Nat) (v : Value) :
    h.WrittenOut enclosing room v (h.toJsonWithin room enclosing v) := by
  by_cases hv : ∃ id, v = .object id ∧ h.IsContainer id
  · obtain ⟨id, rfl, hc⟩ := hv
    cases room with
    | zero => exact toJsonWithin_zero hc ▸ .tooDeep hc
    | succ room =>
      by_cases hm : id ∈ enclosing
      · exact toJsonWithin_of_mem hc hm ▸ .cyclic hc hm
      · exact .container hc hm (assembled_toJsonWithin hc hm)
  · obtain ⟨json, hb, hj⟩ := toJsonWithin_leaf (fun id hid hc => hv ⟨id, hid, hc⟩) room enclosing
    exact hj ▸ .leaf (fun ids hp => hv hp.of_leaf) hb

/-! ## All containers -/

/-- **An answer** is what the value becomes, and all paths from the value fit in the room and meet no
container twice, the enclosing ones included. -/
theorem ok_of_toJsonWithin (hj : h.toJsonWithin room enclosing v = .ok json) :
    h.Becomes v json ∧ ∀ ids, h.Path v ids →
      ids.length ≤ room ∧ ids.Nodup ∧ ∀ id ∈ ids, id ∉ enclosing := by
  induction room using Nat.strongRecOn generalizing enclosing v json with
  | ind room ih =>
    have hw := writtenOut_toJsonWithin h enclosing room v
    rw [hj] at hw
    cases hw with
    | leaf hp hb => exact ⟨hb, fun ids hids => absurd hids (hp ids)⟩
    | @container room id _ hc hm hr =>
      have hless := Nat.lt_succ_self room
      cases hr with
      | done hok hb =>
        refine ⟨hb fun v part _ hpart => (ih room hless hpart).1, fun ids hp => ?_⟩
        cases hp with
        | single hc => simpa using hm
        | @cons _ v ids hf hp =>
          obtain ⟨part, hpart⟩ := hok v hf
          obtain ⟨hlength, hnodup, hout⟩ := (ih room hless hpart).2 ids hp
          refine ⟨Nat.succ_le_succ hlength, List.nodup_cons.mpr ⟨fun hid => ?_, hnodup⟩,
            List.forall_mem_cons.mpr ⟨hm, fun x hx hx' => ?_⟩⟩
          · exact hout id hid List.mem_cons_self
          · exact hout x hx (List.mem_cons_of_mem id hx')

/-- **An error** has a path from the value that shows why: to a container that is on the path already
or encloses it, or to one that there is no room for. -/
theorem error_of_toJsonWithin (he : h.toJsonWithin room enclosing v = .error e) :
    (e = .cyclicStructure ∧ ∃ ids last, h.Path v (ids ++ [last]) ∧ ids.length < room ∧
      (last ∈ enclosing ∨ last ∈ ids)) ∨
    (e = .nestingTooDeep Json.maxDepth ∧ ∃ ids last, h.Path v (ids ++ [last]) ∧
      ids.length = room ∧ ids.Nodup ∧ ∀ id ∈ ids, id ∉ enclosing) := by
  induction room using Nat.strongRecOn generalizing enclosing v with
  | ind room ih =>
    have hw := writtenOut_toJsonWithin h enclosing room v
    rw [he] at hw
    cases hw with
    | @tooDeep id hc =>
      exact Or.inr ⟨rfl, [], id, .single hc, rfl, .nil, fun x hx => absurd hx List.not_mem_nil⟩
    | @cyclic room id hc hm =>
      exact Or.inl ⟨rfl, [], id, .single hc, Nat.succ_pos room, Or.inl hm⟩
    | @container room id _ hc hm hr =>
      cases hr with
      | @failed v _ hv he =>
        rcases ih room (Nat.lt_succ_self room) he with ⟨rfl, ids, last, hp, hlength, hlast⟩ |
          ⟨rfl, ids, last, hp, hlength, hnodup, hout⟩
        · refine Or.inl ⟨rfl, id :: ids, last, .cons hv hp, Nat.succ_lt_succ hlength, ?_⟩
          rcases hlast with hlast | hlast
          · rcases List.mem_cons.mp hlast with rfl | hlast
            · exact Or.inr List.mem_cons_self
            · exact Or.inl hlast
          · exact Or.inr (List.mem_cons_of_mem id hlast)
        · refine Or.inr ⟨rfl, id :: ids, last, .cons hv hp, congrArg Nat.succ hlength,
            List.nodup_cons.mpr ⟨fun hid => ?_, hnodup⟩,
            List.forall_mem_cons.mpr ⟨hm, fun x hx hx' => ?_⟩⟩
          · exact hout id hid List.mem_cons_self
          · exact hout x hx (List.mem_cons_of_mem id hx')

theorem exists_toJson_iff :
    (∃ json, h.toJson v = .ok json) ↔ ∀ ids, h.Path v ids → ids.Nodup ∧ ids.length ≤ 128 := by
  constructor
  · rintro ⟨json, hj⟩ ids hp
    obtain ⟨hlength, hnodup, -⟩ := (ok_of_toJsonWithin hj).2 ids hp
    exact ⟨hnodup, hlength⟩
  · intro hall
    cases hj : h.toJson v with
    | ok json => exact ⟨json, rfl⟩
    | error e =>
      rcases error_of_toJsonWithin hj with ⟨-, ids, last, hp, -, hlast⟩ | ⟨-, ids, last, hp, hlength, -⟩
      · have hlast := hlast.resolve_left List.not_mem_nil
        exact absurd rfl ((List.nodup_append.mp (hall _ hp).1).2.2 last hlast last
          (List.mem_singleton.mpr rfl))
      · have hlong := (hall _ hp).2
        rw [List.length_append, hlength, List.length_singleton] at hlong
        exact absurd hlong (by decide)

theorem cyclic_of_toJson (he : h.toJson v = .error .cyclicStructure) :
    ∃ ids last, h.Path v (ids ++ [last]) ∧ (ids ++ [last]).length ≤ 128 ∧ last ∈ ids := by
  rcases error_of_toJsonWithin he with ⟨-, ids, last, hp, hlength, hlast⟩ | ⟨hne, -⟩
  · refine ⟨ids, last, hp, ?_, hlast.resolve_left List.not_mem_nil⟩
    rw [List.length_append]
    exact hlength
  · cases hne

theorem tooDeep_of_toJson {limit : Nat} (he : h.toJson v = .error (.nestingTooDeep limit)) :
    ∃ ids, h.Path v ids ∧ ids.length = 129 ∧ (ids.take 128).Nodup := by
  rcases error_of_toJsonWithin he with ⟨hne, -⟩ | ⟨-, ids, last, hp, hlength, hnodup, -⟩
  · cases hne
  · have hlength : ids.length = 128 := hlength
    refine ⟨ids ++ [last], hp, ?_, ?_⟩
    · rw [List.length_append, hlength, List.length_singleton]
    · rwa [List.take_left' hlength]

/-- Writing a value out **reads the heap only**: what it leaves is what making the value left. -/
theorem session_toJson (l : Literal) (s : Session) :
    ((ValueRequest.perform (.toJson l)).run.run s).2 = ((StepM.take l).run.run s).2 := by
  rw [ValueRequest.perform, ExceptT.run_bind, StateT.run_bind]
  obtain ⟨r, s'⟩ := (StepM.take l).run.run s
  cases r with
  | error cause => rfl
  | ok v =>
    show ((StepM.orFail (s'.heap.toJson v) >>= fun json =>
      StepM.fact "json" (.ofJson json)).run.run s').2 = s'
    cases s'.heap.toJson v <;> rfl

/-- **Which values become JSON.** A value does exactly if no path from it meets a container twice or
has more than 128 containers, and then every place in it is written out on its own. If it does not,
the error is one of two. A cyclic structure has a path of at most 128 containers to a container that
is on it already; one nested too deeply has a path of 129 containers, the first 128 of them
different. A request for JSON leaves the session as making its argument does, whatever the answer. -/
theorem toJson_decides (h : Heap) (v : Value) :
    ((∃ json, h.toJson v = .ok json) ↔ ∀ ids, h.Path v ids → ids.Nodup ∧ ids.length ≤ 128) ∧
    (∀ json, h.toJson v = .ok json → h.Becomes v json) ∧
    (∀ e, h.toJson v = .error e → e = .cyclicStructure ∨ e = .nestingTooDeep 128) ∧
    (h.toJson v = .error .cyclicStructure → ∃ ids last, h.Path v (ids ++ [last]) ∧
      (ids ++ [last]).length ≤ 128 ∧ last ∈ ids) ∧
    (∀ limit, h.toJson v = .error (.nestingTooDeep limit) → ∃ ids, h.Path v ids ∧
      ids.length = 129 ∧ (ids.take 128).Nodup) ∧
    ∀ (l : Literal) (s : Session),
      ((ValueRequest.perform (.toJson l)).run.run s).2 = ((StepM.take l).run.run s).2 := by
  refine ⟨exists_toJson_iff, fun json hj => (ok_of_toJsonWithin hj).1, fun e he => ?_,
    cyclic_of_toJson, fun limit => tooDeep_of_toJson, session_toJson⟩
  rcases error_of_toJsonWithin he with ⟨rfl, -⟩ | ⟨rfl, -⟩
  · exact Or.inl rfl
  · exact Or.inr rfl

def sharing : NodeId × Heap :=
  (do
    let inner ← HeapM.newArray #[]
    HeapM.newArray #[.object inner, .object inner] : HeapM NodeId).run initial

def looped : NodeId × Heap :=
  (do
    let id ← HeapM.newObject
    HeapM.assignField id "me" (.object id)
    return id : HeapM NodeId).run initial

def nested : Heap :=
  { initial with
    cells := Array.ofFn fun depth : Fin 129 =>
      some ⟨1, .object { Object.plain "Array" none with exotic := .array #[.object (depth + 1)] }⟩ }

theorem eq_error_of_match {r : Except Error Json}
    (hr : (match r with | .ok _ => none | .error e => some e) = some e) : r = .error e := by
  cases r with
  | ok json => cases hr
  | error e' => exact congrArg Except.error (Option.some.inj hr)

/-- Sharing is no cycle: the inner array is written out twice. The object that is a field of its own
has a path back to itself, and the arrays have one past the limit. -/
theorem toJson_decides_shared :
    (∃ json, sharing.2.Becomes (.object sharing.1) json) ∧
    (∀ ids, sharing.2.Path (.object sharing.1) ids → ids.Nodup ∧ ids.length ≤ 128) ∧
    (∃ ids last, looped.2.Path (.object looped.1) (ids ++ [last]) ∧
      (ids ++ [last]).length ≤ 128 ∧ last ∈ ids) ∧
    ∃ ids, nested.Path (.object 0) ids ∧ ids.length = 129 ∧ (ids.take 128).Nodup := by
  have hok : (sharing.2.toJson (.object sharing.1)).isOk = true := by decide +kernel
  have hloop : looped.2.toJson (.object looped.1) = .error .cyclicStructure :=
    eq_error_of_match (by decide +kernel)
  have hdeep : nested.toJson (.object 0) = .error (.nestingTooDeep 128) :=
    eq_error_of_match (by decide +kernel)
  obtain ⟨hiff, hbecomes, -⟩ := toJson_decides sharing.2 (.object sharing.1)
  obtain ⟨-, -, -, hcyclic, -⟩ := toJson_decides looped.2 (.object looped.1)
  obtain ⟨-, -, -, -, htooDeep, -⟩ := toJson_decides nested (.object 0)
  cases hj : sharing.2.toJson (.object sharing.1) with
  | error e =>
    rw [hj] at hok
    cases hok
  | ok json => exact ⟨⟨json, hbecomes json hj⟩, hiff.mp ⟨json, hj⟩, hcyclic hloop, htooDeep 128 hdeep⟩

end Heap

end ScriptCore
