import ScriptCore.Proofs.Agreement.Answers
import ScriptCore.Proofs.Agreement.Functions

/-!
# JSON there and back

A JSON value made into a script value, and that into JSON again, is the value it was, if its
containers are nested no deeper than `Json.maxDepth`; with deeper ones it is refused
(`Heap.throughValues_eq`). What is made represents the JSON value, and a value that represents JSON
becomes that JSON. In between a collection may come up any time.
-/

namespace ScriptCore

namespace Json

variable {json : Json} {n : Nat}

/-! ## Depth -/

mutual

def depth : Json → Nat
  | .array items => depthItems items + 1
  | .object entries => depthEntries entries + 1
  | _ => 0

def depthItems : List Json → Nat
  | [] => 0
  | item :: items => max item.depth (depthItems items)

def depthEntries : List (String × Json) → Nat
  | [] => 0
  | (_, value) :: entries => max value.depth (depthEntries entries)

end

theorem depthItems_le_iff {items : List Json} :
    depthItems items ≤ n ↔ ∀ item ∈ items, item.depth ≤ n := by
  induction items with
  | nil => simp [depthItems]
  | cons item items ih => simp [depthItems, ih]

theorem depthEntries_le_iff {entries : List (String × Json)} :
    depthEntries entries ≤ n ↔ ∀ entry ∈ entries, entry.2.depth ≤ n := by
  induction entries with
  | nil => simp [depthEntries]
  | cons entry entries ih => simp [depthEntries, ih]

theorem depth_array_le_iff {items : List Json} :
    (Json.array items).depth ≤ n + 1 ↔ ∀ item ∈ items, item.depth ≤ n := by
  rw [depth, Nat.add_le_add_iff_right, depthItems_le_iff]

theorem depth_object_le_iff {entries : List (String × Json)} :
    (Json.object entries).depth ≤ n + 1 ↔ ∀ entry ∈ entries, entry.2.depth ≤ n := by
  rw [depth, Nat.add_le_add_iff_right, depthEntries_le_iff]

/-! ## Numbers -/

/-- All doubles in a JSON value are finite. -/
inductive Finite : Json → Prop
  | null : Finite .null
  | boolean (b : Bool) : Finite (.boolean b)
  | integer (n : Int64) : Finite (.integer n)
  | double {d : Double} (hd : d.isFinite = true) : Finite (.double d)
  | string (s : String) : Finite (.string s)
  | array {items : List Json} (hi : ∀ item ∈ items, Finite item) : Finite (.array items)
  | object {entries : List (String × Json)} (he : ∀ entry ∈ entries, Finite entry.2) :
      Finite (.object entries)

theorem Finite.isFinite {d : Double} (hf : (Json.double d).Finite) : d.isFinite = true := by
  cases hf with
  | double hd => exact hd

theorem Finite.of_mem_items {items : List Json} (hf : (Json.array items).Finite) {item : Json}
    (hm : item ∈ items) : item.Finite := by
  cases hf with
  | array hi => exact hi item hm

theorem Finite.of_mem_entries {entries : List (String × Json)} (hf : (Json.object entries).Finite)
    {entry : String × Json} (hm : entry ∈ entries) : entry.2.Finite := by
  cases hf with
  | object he => exact he entry hm

/-! ## What becomes of values -/

/-- A JSON value as values become it: sorted, with finite numbers, nested no deeper than `n`. -/
structure Within (n : Nat) (json : Json) : Prop where
  sorted : json.Sorted
  finite : json.Finite
  depth_le : json.depth ≤ n

theorem Within.of_scalar {found : Json} (hj : (.ok found : Except Error Json) = .ok json)
    (hs : found.Sorted) (hf : found.Finite) (hd : found.depth = 0) : json.Within n :=
  Except.ok.inj hj ▸ ⟨hs, hf, hd ▸ Nat.zero_le _⟩

theorem Within.array {items : List Json} (hi : ∀ item ∈ items, item.Within n) :
    (Json.array items).Within (n + 1) :=
  ⟨.array fun item hm => (hi item hm).sorted, .array fun item hm => (hi item hm).finite,
    depth_array_le_iff.mpr fun item hm => (hi item hm).depth_le⟩

theorem Within.object {entries : List (String × Json)} (ha : Ascending entries)
    (he : ∀ entry ∈ entries, entry.2.Within n) : (Json.object entries).Within (n + 1) :=
  ⟨.object ha fun entry hm => (he entry hm).sorted, .object fun entry hm => (he entry hm).finite,
    depth_object_le_iff.mpr fun entry hm => (he entry hm).depth_le⟩

end Json

namespace Heap

variable {h : Heap} {n id : NodeId} {v : Value} {json : Json} {held : List NodeId}
  {room : Nat} {enclosing : List NodeId}

/-! ## From values to JSON -/

theorem Represents.isOmitted (hr : h.Represents n v json) : h.isOmitted v = false := by
  cases hr with
  | null | boolean | integer | double => rfl
  | string _ ho hx | array _ ho hx | object _ ho hx =>
    simp [Heap.isOmitted, isFunction, kind?, objectOf?, Value.id?, ho, Object.kind, hx, Exotic.kind]

theorem contains_eq_false (hlt : id < n) (hn : ∀ x ∈ enclosing, n ≤ x) :
    enclosing.contains id = false := by
  simpa using fun hm => absurd (hn id hm) (Nat.not_le.mpr hlt)

theorem le_of_enclosing (hlt : id < n) (hn : ∀ x ∈ enclosing, n ≤ x) :
    ∀ x ∈ id :: enclosing, id ≤ x := by
  intro x hm
  rcases List.mem_cons.mp hm with rfl | hm
  · exact le_rfl
  · exact hlt.le.trans (hn x hm)

/-- **A value that represents JSON becomes that JSON**, if there is room for its containers. The
objects in it are below those that enclose it, so it is none of them. -/
theorem Represents.toJsonWithin (hr : h.Represents n v json) (hs : json.Sorted)
    (hf : json.Finite) (hn : ∀ x ∈ enclosing, n ≤ x) :
    h.toJsonWithin room enclosing v =
      if json.depth ≤ room then .ok json else .error (.nestingTooDeep Json.maxDepth) := by
  induction hr generalizing room enclosing with
  | null | boolean | integer => simp [Heap.toJsonWithin, Json.depth]
  | double d => simp [Heap.toJsonWithin, Json.depth, hf.isFinite]
  | string _ ho hx => simp [Heap.toJsonWithin, Json.depth, ho, hx]
  | @array n id o elements items hlt ho hx hlength _ ih =>
    cases room with
    | zero => simp [Heap.toJsonWithin, Json.depth, ho, hx]
    | succ room =>
      have hitems := mapM_of_forall₂ (f := h.toJsonWithin room (id :: enclosing))
        (p := fun item => item.depth ≤ room) (List.forall₂_iff_zip.mpr ⟨hlength, fun hm =>
          ih _ _ hm (hs.of_mem_items (List.of_mem_zip hm).2)
            (hf.of_mem_items (List.of_mem_zip hm).2) (le_of_enclosing hlt hn)⟩)
      simp only [Heap.toJsonWithin, ho, hx, contains_eq_false hlt hn, Bool.false_eq_true, if_false,
        Json.depth_array_le_iff, hitems]
      split <;> rfl
  | @object n id o entries hlt ho hx hlength hnames he ih =>
    cases room with
    | zero => simp [Heap.toJsonWithin, Json.depth, ho, hx]
    | succ room =>
      have hkept : (o.fields.entries.filter fun e => !h.isOmitted e.2) = o.fields.entries := by
        refine List.filter_eq_self.mpr fun a hm => ?_
        rw [← List.map_fst_zip hlength.le] at hm
        obtain ⟨b, hb, rfl⟩ := List.mem_map.mp hm
        rw [(he _ _ hb).isOmitted]
        rfl
      have hentries := mapM_of_forall₂
        (f := fun e : String × Value =>
          (h.toJsonWithin room (id :: enclosing) e.2).map fun json => (e.1, json))
        (p := fun entry : String × Json => entry.2.depth ≤ room)
        (List.forall₂_iff_zip.mpr ⟨hlength, fun {a b} hm => by
          rw [ih a b hm (hs.of_mem_entries (List.of_mem_zip hm).2)
            (hf.of_mem_entries (List.of_mem_zip hm).2) (le_of_enclosing hlt hn), hnames a b hm]
          split <;> rfl⟩)
      simp only [Heap.toJsonWithin, ho, hx, contains_eq_false hlt hn, Bool.false_eq_true, if_false,
        Json.depth_object_le_iff, hkept, hentries]
      split
      · exact congrArg Except.ok (congrArg Json.object (Json.sortEntries_of_ascending hs.ascending))
      · rfl

/-! ## JSON of values -/

theorem within_of_object {o : Object}
    (helements : ∀ less, room = less + 1 → ∀ (enclosing : List NodeId) (v : Value) (json : Json),
      h.toJsonWithin less enclosing v = .ok json → json.Within less)
    (ho : h.object? id = some o) (hj : h.toJsonWithin room enclosing (.object id) = .ok json) :
    json.Within room := by
  rw [toJsonWithin, ho] at hj
  dsimp only at hj
  cases hx : o.exotic with
  | string text =>
    simp only [hx] at hj
    exact .of_scalar hj (.string text) (.string text) rfl
  | function f =>
    simp only [hx] at hj
    exact .of_scalar hj .null .null rfl
  | array elements =>
    rw [hx] at hj
    cases room with
    | zero => cases hj
    | succ room =>
      dsimp only at hj
      split at hj
      · cases hj
      · obtain ⟨items, hitems, rfl⟩ := ok_of_map hj
        exact .array (forall_of_mapM (fun x _ => helements room rfl _ x) hitems)
  | ordinary =>
    rw [hx] at hj
    cases room with
    | zero => cases hj
    | succ room =>
      dsimp only at hj
      split at hj
      · cases hj
      · obtain ⟨entries, hentries, rfl⟩ := ok_of_map hj
        have hall : ∀ entry ∈ entries, entry.2.Within room := by
          refine forall_of_mapM (p := fun entry => entry.2.Within room)
            (fun x _ entry he => ?_) hentries
          obtain ⟨json, hjson, rfl⟩ := ok_of_map he
          exact helements room rfl _ x.2 json hjson
        exact .object (Json.ascending_sortEntries entries) fun entry hm =>
          hall entry (Json.mem_sortEntries hm)

theorem within_of_elements
    (helements : ∀ less, room = less + 1 → ∀ (enclosing : List NodeId) (v : Value) (json : Json),
      h.toJsonWithin less enclosing v = .ok json → json.Within less)
    (hj : h.toJsonWithin room enclosing v = .ok json) : json.Within room := by
  cases v with
  | object id =>
    cases ho : h.object? id with
    | some o => exact within_of_object helements ho hj
    | none =>
      rw [toJsonWithin, ho] at hj
      exact .of_scalar hj .null .null rfl
  | undefined | null =>
    rw [toJsonWithin] at hj
    exact .of_scalar hj .null .null rfl
  | boolean b =>
    rw [toJsonWithin] at hj
    exact .of_scalar hj (.boolean b) (.boolean b) rfl
  | integer n =>
    rw [toJsonWithin] at hj
    exact .of_scalar hj (.integer n) (.integer n) rfl
  | double d =>
    rw [toJsonWithin] at hj
    split at hj
    · next hd => exact .of_scalar hj (.double d) (.double hd) rfl
    · exact .of_scalar hj .null .null rfl

/-- **What values become** is sorted, finite and nested no deeper than there was room. -/
theorem within_of_toJsonWithin (room : Nat) : ∀ (enclosing : List NodeId) (v : Value) (json : Json),
    h.toJsonWithin room enclosing v = .ok json → json.Within room := by
  induction room with
  | zero => exact fun enclosing v json => within_of_elements fun less hl => by omega
  | succ room ih =>
    intro enclosing v json
    refine within_of_elements fun less hl => ?_
    obtain rfl : room = less := by omega
    exact ih

/-! ## There and back -/

/-- A JSON value made into a script value, and that into JSON. -/
def throughValues (h : Heap) (json : Json) : Except Error Json :=
  let made := (HeapM.ofJson json).run h
  made.2.toJson made.1

theorem exists_links : ∀ held : List NodeId, (∀ id ∈ held, h.isLive id = true) →
    ∃ links : List Link, links.map Link.target = held ∧ ∀ l ∈ links, h.Has l := by
  intro held hl
  induction held with
  | nil => exact ⟨[], rfl, fun l hm => absurd hm List.not_mem_nil⟩
  | cons id held ih =>
    obtain ⟨links, rfl, hhas⟩ := ih fun id hm => hl id (List.mem_cons_of_mem _ hm)
    obtain ⟨node, hn⟩ := isLive_iff_node?.mp (hl id (List.mem_cons_self ..))
    refine ⟨node.linkTo id :: links, congrArg (· :: _) ?_, ?_⟩
    · cases node <;> rfl
    · exact List.forall_mem_cons.mpr ⟨has_linkTo hn, hhas⟩

theorem throughValues_of_reachable (hr : h.Reachable held) (hs : json.Sorted) (hf : json.Finite) :
    h.throughValues json =
      if json.depth ≤ Json.maxDepth then .ok json
      else .error (.nestingTooDeep Json.maxDepth) := by
  obtain ⟨links, rfl, hl⟩ := exists_links held fun id hm => hr.isLive hm
  obtain ⟨_, _, _, hmade⟩ := Agree.runOfJson hs (Agree.refl hr hl trivial)
  exact hmade.toJsonWithin hs hf fun x hm => absurd hm List.not_mem_nil

/-- **JSON goes there and back unchanged.** On every heap that a program can come to, a JSON value
with finite numbers, whatever the names in it, comes back as it was if its containers are nested at
most 128 deep, and is refused if they are nested deeper. So what a value became comes back too. -/
theorem throughValues_eq (hr : h.Reachable held) :
    (∀ json : Json, json.Sorted → json.Finite →
      h.throughValues json =
        if json.depth ≤ 128 then .ok json else .error (.nestingTooDeep 128)) ∧
      ∀ (v : Value) (json : Json), h.toJson v = .ok json → h.throughValues json = .ok json := by
  have hall (json : Json) (hs : json.Sorted) (hf : json.Finite) :
      h.throughValues json =
        if json.depth ≤ 128 then .ok json else .error (.nestingTooDeep 128) :=
    throughValues_of_reachable hr hs hf
  refine ⟨hall, fun v json hj => ?_⟩
  have hw : json.Within 128 := within_of_toJsonWithin Json.maxDepth [] v json hj
  rw [hall json hw.sorted hw.finite, if_pos hw.depth_le]

/-- Names that mean something to objects, next to an integer, and a double that is whole. -/
def unruly : Json :=
  .object [("", .integer 1), ("__proto__", .double (.ofInt 1)), ("length", .array [.null])]

/-- The names make plain fields, and the double stays one. -/
theorem throughValues_eq_unruly :
    initial.Reachable [] ∧ unruly.Sorted ∧ unruly.Finite ∧ unruly.depth = 2 ∧
      initial.throughValues unruly = .ok unruly ∧
      initial.toJson (.double .nan) = .ok .null ∧ initial.throughValues .null = .ok .null := by
  have hs : unruly.Sorted := by
    refine .object (by unfold Json.Ascending; decide +kernel) ?_
    simp only [List.forall_mem_cons, List.not_mem_nil, false_imp_iff, implies_true, and_true]
    refine ⟨.integer 1, .double _, .array fun item hm => ?_⟩
    exact List.mem_singleton.mp hm ▸ .null
  have hf : unruly.Finite := by
    refine .object ?_
    simp only [List.forall_mem_cons, List.not_mem_nil, false_imp_iff, implies_true, and_true]
    refine ⟨.integer 1, .double (by decide +kernel), .array fun item hm => ?_⟩
    exact List.mem_singleton.mp hm ▸ .null
  have hnull : initial.toJson (.double .nan) = .ok .null := rfl
  exact ⟨.initial, hs, hf, rfl, (throughValues_eq .initial).1 unruly hs hf, hnull,
    (throughValues_eq .initial).2 _ _ hnull⟩

end Heap

end ScriptCore
