import ScriptCore.Proofs.Scopes.Environments

/-!
# Arrays as bounded lists

What a write to an array does is said of lists first (`ArrayWrite.Yields`): it answers, and there is
another list of elements, or the write is refused. There is one rule for each way it can go; for every
write to every list one of them applies (`ArrayWrite.exists_yields`) and no two disagree
(`ArrayWrite.Yields.unique`), and a list that is not too long stays so (`ArrayWrite.Yields.length_le`).

An array on a heap does just that. A write that is refused changes nothing at all
(`Heap.run_perform_of_refused`), and one that is not gives the array the elements of the list and leaves
everything else about the array alone, while what the elements referred to is let go
(`Heap.Hosted.perform`). So it goes on for as long as the array is written to, whatever else is done in
between (`Heap.ArrayRun`).
-/

namespace ScriptCore

open Elements (maxLength)

/-- A write to an array. -/
inductive ArrayWrite where
  | push (v : Value)
  | pop
  | setElement (index : Nat) (v : Value)
  | setLength (length : Nat)
  /-- an assignment to the field `length` -/
  | assignLength (v : Value)

/-- What a write to an array answers: the new length, the element taken off, or whether it was
possible; an assignment answers nothing. -/
inductive ArrayAnswer where
  | length (new : Option Nat)
  | last (v : Option Value)
  | done (possible : Bool)
  | silent
deriving DecidableEq

/-- The length that an assigned value stands for: whole numbers, finite doubles cut to their whole part,
truth values and null, where the value is neither negative nor above the limit. -/
inductive MeansLength : Value → Nat → Prop
  | integer {i : Int64} {n : Nat} (hi : i.toInt = n) (hmax : n ≤ maxLength) :
      MeansLength (.integer i) n
  | double {d : Double} {n : Nat} (hfinite : d.isFinite = true)
      (hle : n * Double.unitsPerOne ≤ d.units) (hlt : d.units < (n + 1) * Double.unitsPerOne)
      (hmax : d.units ≤ maxLength * Double.unitsPerOne) : MeansLength (.double d) n
  | boolean (b : Bool) : MeansLength (.boolean b) b.toNat
  | null : MeansLength .null 0

namespace ArrayWrite

/-- What a write does to a list of elements: its answer, and the list afterwards unless it is
refused. -/
inductive Yields (l : List Value) : ArrayWrite → ArrayAnswer → Option (List Value) → Prop
  | pushed {v : Value} (hroom : l.length < maxLength) :
      Yields l (.push v) (.length (some (l.length + 1))) (some (l ++ [v]))
  | full {v : Value} (hfull : maxLength ≤ l.length) : Yields l (.push v) (.length none) none
  | popped {rest : List Value} {v : Value} (hl : l = rest ++ [v]) :
      Yields l .pop (.last (some v)) (some rest)
  | empty (hl : l = []) : Yields l .pop (.last none) none
  | overwritten {index : Nat} {v : Value} (hi : index < l.length) :
      Yields l (.setElement index v) (.done true) (some (l.set index v))
  | padded {index : Nat} {v : Value} (hi : l.length ≤ index) (hmax : index < maxLength) :
      Yields l (.setElement index v) (.done true)
        (some (l ++ List.replicate (index - l.length) .undefined ++ [v]))
  | tooFar {index : Nat} {v : Value} (hi : l.length ≤ index) (hmax : maxLength ≤ index) :
      Yields l (.setElement index v) (.done false) none
  | truncated {n : Nat} (hn : n ≤ l.length) (hmax : n ≤ maxLength) :
      Yields l (.setLength n) (.done true) (some (l.take n))
  | extended {n : Nat} (hn : l.length ≤ n) (hmax : n ≤ maxLength) :
      Yields l (.setLength n) (.done true)
        (some (l ++ List.replicate (n - l.length) .undefined))
  | tooLong {n : Nat} (hmax : maxLength < n) : Yields l (.setLength n) (.done false) none
  /-- what is assigned means a length, and that is the length then -/
  | assigned {v : Value} {n : Nat} {l' : List Value} (hv : MeansLength v n)
      (hl : Yields l (.setLength n) (.done true) (some l')) :
      Yields l (.assignLength v) .silent (some l')
  | ignored {v : Value} (hv : ∀ n, ¬MeansLength v n) : Yields l (.assignLength v) .silent none

/-- Writes with their answers, one after the other, and the list afterwards. -/
inductive Evolves : List Value → List (ArrayWrite × ArrayAnswer) → List Value → Prop
  | nil (l : List Value) : Evolves l [] l
  | cons {l l' : List Value} {w : ArrayWrite} {answer : ArrayAnswer} {next : Option (List Value)}
      {told : List (ArrayWrite × ArrayAnswer)} (hy : w.Yields l answer next)
      (rest : Evolves (next.getD l) told l') : Evolves l ((w, answer) :: told) l'

def perform (id : NodeId) : ArrayWrite → HeapM ArrayAnswer
  | .push v => return .length (← HeapM.push id v)
  | .pop => return .last (← HeapM.pop id)
  | .setElement index v => return .done (← HeapM.setElement id index v)
  | .setLength n => return .done (← HeapM.setLength id n)
  | .assignLength v => do
    HeapM.assignField id "length" v
    return .silent

def links : ArrayWrite → List Link
  | .push v | .setElement _ v | .assignLength v => v.links
  | .pop | .setLength _ => []

end ArrayWrite

def ArrayAnswer.links : ArrayAnswer → List Link
  | .last v => valueLinks v.toList
  | .length _ | .done _ | .silent => []

/-! ## Lengths -/

namespace Double

theorem unitsPerOne_pos : 0 < unitsPerOne := by decide +kernel

theorem toNat_eq_iff {d : Double} (hd : 0 ≤ d.units) {n : Nat} :
    d.toNat = n ↔ n * (unitsPerOne : Int) ≤ d.units ∧ d.units < (n + 1) * (unitsPerOne : Int) := by
  obtain ⟨m, hm⟩ := Int.eq_ofNat_of_zero_le hd
  rw [toNat, hm, Int.toNat_natCast, Nat.div_eq_iff unitsPerOne_pos]
  have hpos := unitsPerOne_pos
  generalize unitsPerOne = u at hpos
  have hsucc : ((n : Int) + 1) * u = ((n * u + u : Nat) : Int) := by push_cast; ring
  rw [hsucc, ← Int.natCast_mul, Int.ofNat_le, Int.ofNat_lt]
  omega

end Double

namespace MeansLength

variable {v : Value} {n : Nat}

theorem le (hm : MeansLength v n) : n ≤ maxLength := by
  cases hm with
  | integer hi hmax => exact hmax
  | double hfinite hle hlt hmax =>
    exact Nat.le_of_mul_le_mul_right (by exact_mod_cast hle.trans hmax) Double.unitsPerOne_pos
  | boolean b => cases b <;> decide
  | null => decide

end MeansLength

theorem lengthOf?_double {d : Double} {n : Nat} :
    Elements.lengthOf? (.double d) = some n ↔ d.isFinite = true ∧ 0 ≤ d.units ∧
      d.units ≤ maxLength * (Double.unitsPerOne : Int) ∧ d.toNat = n := by
  simp only [Elements.lengthOf?, Bool.and_eq_true, decide_eq_true_eq,
    Option.ite_none_right_eq_some, Option.some.injEq, and_assoc]

/-- **What is taken as a length** and is not too long is what the value means as a length. -/
theorem meansLength_iff {v : Value} {n : Nat} :
    MeansLength v n ↔ Elements.lengthOf? v = some n ∧ n ≤ maxLength := by
  constructor
  · intro hm
    refine ⟨?_, hm.le⟩
    cases hm with
    | @integer i n hi hmax => simp [Elements.lengthOf?, hi]
    | double hfinite hle hlt hmax =>
      have hnonneg := (Int.mul_nonneg n.cast_nonneg (Int.natCast_nonneg _)).trans hle
      have hn := (Double.toNat_eq_iff hnonneg).mpr ⟨hle, hlt⟩
      exact lengthOf?_double.mpr ⟨hfinite, hnonneg, hmax, hn⟩
    | boolean b => rfl
    | null => rfl
  · rintro ⟨hl, hmax⟩
    cases v with
    | undefined => cases hl
    | object id => cases hl
    | null =>
      obtain rfl := Option.some.inj hl
      exact .null
    | boolean b =>
      obtain rfl := Option.some.inj hl
      exact .boolean b
    | integer i =>
      simp only [Elements.lengthOf?, Option.ite_none_right_eq_some, Option.some.injEq] at hl
      exact .integer (by omega) hmax
    | double d =>
      obtain ⟨hfinite, hnonneg, hle, hn⟩ := lengthOf?_double.mp hl
      obtain ⟨hlow, hhigh⟩ := (Double.toNat_eq_iff hnonneg).mp hn
      exact .double hfinite hlow hhigh hle

theorem MeansLength.unique {v : Value} {n n' : Nat} (hm : MeansLength v n) (hm' : MeansLength v n') :
    n' = n := by
  have hn := (meansLength_iff.mp hm).1
  exact Option.some.inj ((meansLength_iff.mp hm').1.symm.trans hn)

/-! ## What a write does to a list -/

namespace ArrayWrite

variable {l l' : List Value} {w : ArrayWrite} {answer answer' : ArrayAnswer}
  {next next' : Option (List Value)}

theorem exists_yields_setLength (l : List Value) {n : Nat} (hmax : n ≤ maxLength) :
    ∃ l', Yields l (.setLength n) (.done true) (some l') := by
  rcases Nat.le_total n l.length with hn | hn
  · exact ⟨_, .truncated hn hmax⟩
  · exact ⟨_, .extended hn hmax⟩

/-- **There is a rule for every write** to every list. -/
theorem exists_yields (l : List Value) (w : ArrayWrite) : ∃ answer next, w.Yields l answer next := by
  cases w with
  | push v =>
    rcases Nat.lt_or_ge l.length maxLength with hl | hl
    · exact ⟨_, _, .pushed hl⟩
    · exact ⟨_, _, .full hl⟩
  | pop =>
    rcases List.eq_nil_or_concat l with hl | ⟨rest, v, hl⟩
    · exact ⟨_, _, .empty hl⟩
    · exact ⟨_, _, .popped (hl.trans (List.concat_eq_append ..))⟩
  | setElement index v =>
    rcases Nat.lt_or_ge index l.length with hi | hi
    · exact ⟨_, _, .overwritten hi⟩
    · rcases Nat.lt_or_ge index maxLength with hmax | hmax
      · exact ⟨_, _, .padded hi hmax⟩
      · exact ⟨_, _, .tooFar hi hmax⟩
  | setLength n =>
    rcases Nat.lt_or_ge maxLength n with hmax | hmax
    · exact ⟨_, _, .tooLong hmax⟩
    · obtain ⟨l', hl⟩ := exists_yields_setLength l hmax
      exact ⟨_, _, hl⟩
  | assignLength v =>
    by_cases hv : ∃ n, MeansLength v n
    · obtain ⟨n, hv⟩ := hv
      obtain ⟨l', hl⟩ := exists_yields_setLength l hv.le
      exact ⟨_, _, .assigned hv hl⟩
    · exact ⟨_, _, .ignored fun n hn => hv ⟨n, hn⟩⟩

theorem Yields.eq_of_setLength {n : Nat} (hy : Yields l (.setLength n) answer (some l')) :
    l' = l.take n ++ List.replicate (n - l.length) .undefined := by
  cases hy with
  | truncated hn => rw [Nat.sub_eq_zero_of_le hn, List.replicate_zero, List.append_nil]
  | extended hn => rw [List.take_of_length_le hn]

/-- **No two rules disagree.** -/
theorem Yields.unique (hy : w.Yields l answer next) (hy' : w.Yields l answer' next') :
    answer' = answer ∧ next' = next := by
  have hlength {n : Nat} {l₁ l₂ : List Value} {a₁ a₂ : ArrayAnswer}
      (h₁ : Yields l (.setLength n) a₁ (some l₁)) (h₂ : Yields l (.setLength n) a₂ (some l₂)) :
      l₂ = l₁ := h₂.eq_of_setLength.trans h₁.eq_of_setLength.symm
  cases hy with
  | pushed hroom =>
    cases hy' with
    | pushed => exact ⟨rfl, rfl⟩
    | full hfull => omega
  | full hfull =>
    cases hy' with
    | pushed hroom => omega
    | full => exact ⟨rfl, rfl⟩
  | popped hl =>
    cases hy' with
    | popped hl' =>
      obtain ⟨rfl, hv⟩ := List.append_inj' (hl'.symm.trans hl) rfl
      obtain rfl := List.singleton_inj.mp hv
      exact ⟨rfl, rfl⟩
    | empty hl' => simp [hl'] at hl
  | empty hl =>
    cases hy' with
    | popped hl' => simp [hl] at hl'
    | empty => exact ⟨rfl, rfl⟩
  | overwritten hi =>
    cases hy' with
    | overwritten => exact ⟨rfl, rfl⟩
    | padded hi' | tooFar hi' => omega
  | padded hi hmax =>
    cases hy' with
    | padded => exact ⟨rfl, rfl⟩
    | overwritten hi' => omega
    | tooFar _ hmax' => omega
  | tooFar hi hmax =>
    cases hy' with
    | tooFar => exact ⟨rfl, rfl⟩
    | overwritten hi' => omega
    | padded _ hmax' => omega
  | truncated hn hmax =>
    cases hy' with
    | truncated => exact ⟨rfl, rfl⟩
    | extended hn' hmax' =>
      exact ⟨rfl, congrArg some (hlength (.truncated hn hmax) (.extended hn' hmax'))⟩
    | tooLong hmax' => omega
  | extended hn hmax =>
    cases hy' with
    | truncated hn' hmax' =>
      exact ⟨rfl, congrArg some (hlength (.extended hn hmax) (.truncated hn' hmax'))⟩
    | extended => exact ⟨rfl, rfl⟩
    | tooLong hmax' => omega
  | tooLong hmax =>
    cases hy' with
    | tooLong => exact ⟨rfl, rfl⟩
    | truncated _ hmax' | extended _ hmax' => omega
  | assigned hv hl =>
    cases hy' with
    | assigned hv' hl' =>
      obtain rfl := hv.unique hv'
      exact ⟨rfl, congrArg some (hlength hl hl')⟩
    | ignored hv' => exact absurd hv (hv' _)
  | ignored hv =>
    cases hy' with
    | assigned hv' => exact absurd hv' (hv _)
    | ignored => exact ⟨rfl, rfl⟩

/-- **A list that is not too long stays so.** -/
theorem Yields.length_le (hy : w.Yields l answer next) (hl : l.length ≤ maxLength) :
    (next.getD l).length ≤ maxLength := by
  induction hy with
  | pushed hroom => simpa using hroom
  | popped he => simp_all; omega
  | overwritten hi => simpa using hl
  | padded hi hmax => simp; omega
  | truncated hn hmax => simp; omega
  | extended hn hmax => simp; omega
  | assigned hv hy ih => exact ih
  | full | empty | tooFar | tooLong | ignored => exact hl

theorem Evolves.unique {told told' : List (ArrayWrite × ArrayAnswer)} {l'' : List Value}
    (he : Evolves l told l') (he' : Evolves l told' l'')
    (hw : told'.map Prod.fst = told.map Prod.fst) : told' = told ∧ l'' = l' := by
  induction he generalizing told' with
  | nil =>
    obtain rfl := List.map_eq_nil_iff.mp hw
    cases he'
    exact ⟨rfl, rfl⟩
  | cons hy rest ih =>
    cases he' with
    | nil => cases hw
    | cons hy' rest' =>
      obtain ⟨hfirst, hothers⟩ := List.cons.inj hw
      obtain rfl : _ = _ := hfirst
      obtain ⟨rfl, rfl⟩ := hy.unique hy'
      obtain ⟨rfl, rfl⟩ := ih rest' hothers
      exact ⟨rfl, rfl⟩

end ArrayWrite

namespace Heap

open ArrayWrite

variable {h k : Heap} {id : NodeId} {o : Object} {links links' : List Link} {l l' : List Value}
  {w : ArrayWrite} {answer : ArrayAnswer} {told : List (ArrayWrite × ArrayAnswer)}

/-! ## What the writes do to a heap -/

section Running

variable (he : h.elementsOf? id = some l.toArray)

include he

theorem run_push (v : Value) : (HeapM.push id v).run h =
    if maxLength ≤ l.length then (none, h)
    else (some (l.length + 1), h.setElements id (l.toArray.push v) []) := by
  rw [HeapM.push, run_get_bind, he]
  dsimp only
  rw [List.size_toArray]
  split <;> rfl

theorem run_pop : (HeapM.pop id).run h =
    match l.getLast? with
    | none => (none, h)
    | some last =>
      (some last, (h.addHandles last.references).setElements id l.dropLast.toArray []) := by
  rw [HeapM.pop, run_get_bind, he, Option.bind_some, List.back?_toArray]
  cases l.getLast? with
  | none => rfl
  | some last =>
    rw [← List.pop_toArray]
    rfl

theorem run_setElement (index : Nat) (v : Value) : (HeapM.setElement id index v).run h =
    if index < l.length then
      (true, h.setElements id (l.toArray.setIfInBounds index v) l.toArray[index]?.toList)
    else if maxLength ≤ index then (false, h)
    else (true, h.setElements id ((Elements.resize l.toArray index).push v) []) := by
  rw [HeapM.setElement, run_get_bind, he]
  dsimp only
  rw [List.size_toArray]
  split
  · rfl
  · split <;> rfl

theorem run_setLength (n : Nat) : (HeapM.setLength id n).run h =
    if maxLength < n then (false, h)
    else (true, h.setElements id (Elements.resize l.toArray n)
      (l.toArray.extract n l.toArray.size).toList) := by
  rw [HeapM.setLength, run_get_bind, he]
  dsimp only
  split <;> rfl

theorem run_assignField_length (v : Value) : (HeapM.assignField id "length" v).run h =
    ((), ((HeapM.assignLength id v).run h).2) := by
  obtain ⟨o, ho, hx⟩ := Agree.exotic_of_elementsOf? he
  have harray : h.isArray (.object id) = true := by
    rw [isArray, kind?, objectOf?, Value.id?, Option.bind_some, ho]
    simp [Object.kind, hx, Exotic.kind]
  unfold HeapM.assignField
  rw [if_neg (by decide)]
  show StateT.run (if (decide ("length" = "length") && h.isArray (.object id)) = true
    then _ else _) h = _
  rw [harray, Bool.and_true, if_pos (by decide)]
  rfl

/-- **A write that is refused changes nothing.** -/
theorem run_perform_of_refused (hy : w.Yields l answer none) :
    (w.perform id).run h = (answer, h) := by
  cases hy with
  | @full v hfull => exact run_bind_of_run ((run_push he v).trans (if_pos hfull))
  | empty hl =>
    have hrun := run_pop he
    rw [hl] at hrun
    exact run_bind_of_run hrun
  | @tooFar index v hi hmax =>
    exact run_bind_of_run ((run_setElement he index v).trans
      ((if_neg (Nat.not_lt.mpr hi)).trans (if_pos hmax)))
  | @tooLong n hmax => exact run_bind_of_run ((run_setLength he n).trans (if_pos hmax))
  | @ignored v hv =>
    have hrun := run_assignField_length he v
    have hsame : ((HeapM.assignLength id v).run h).2 = h := by
      rw [HeapM.assignLength]
      cases hn : Elements.lengthOf? v with
      | none => rfl
      | some n =>
        have hmax : maxLength < n := Nat.not_le.mp fun hle => hv n (meansLength_iff.mpr ⟨hn, hle⟩)
        exact congrArg Prod.snd ((run_setLength he n).trans (if_pos hmax))
    rw [hsame] at hrun
    exact run_bind_of_run hrun

end Running

/-! ## Arrays that are held -/

/-- The host holds an array with these elements, which is otherwise as the given object is. -/
structure HoldsArray (links : List Link) (h : Heap) (id : NodeId) (o : Object) (l : List Value) :
    Prop where
  hosted : Hosted links h
  held : .object id ∈ links
  object : h.object? id = some { o with exotic := .array l.toArray }

/-- A run in which an array is written to: what the host holds and the heap before it, the writes with
their answers, and what is held and the heap after it. What is written is held then. In between anything
may be done that leaves the array alone. -/
inductive ArrayRun (id : NodeId) :
    List Link → Heap → List (ArrayWrite × ArrayAnswer) → List Link → Heap → Prop
  | nil (links : List Link) (h : Heap) : ArrayRun id links h [] links h
  | write {links links' : List Link} {h g k : Heap} {w : ArrayWrite} {answer : ArrayAnswer}
      {told : List (ArrayWrite × ArrayAnswer)} (hw : w.links ⊆ links)
      (hrun : (w.perform id).run h = (answer, g))
      (rest : ArrayRun id (answer.links ++ links) g told links' k) :
      ArrayRun id links h ((w, answer) :: told) links' k
  | aside {links between links' : List Link} {h g k : Heap}
      {told : List (ArrayWrite × ArrayAnswer)} (hg : Hosted between g) (hid : .object id ∈ between)
      (hsame : g.object? id = h.object? id) (rest : ArrayRun id between g told links' k) :
      ArrayRun id links h told links' k

namespace HoldsArray

variable (ha : HoldsArray links h id o l)

include ha

theorem elementsOf?_eq : h.elementsOf? id = some l.toArray := by
  rw [elementsOf?, ha.object]
  rfl

theorem setElements {lost : List Value} {more : List Link}
    (hx : Elements.Exchange l.toArray l'.toArray lost more) (hmore : more ⊆ links) :
    HoldsArray links (h.setElements id l'.toArray lost) id o l' := by
  let history : History := .nesting
  obtain ⟨hagree, hobject⟩ := ha.hosted.agree.setElements (.held ha.held) ha.elementsOf?_eq hx
    fun l hl => .held (hmore hl)
  have hafter := hobject ha.held _ ha.object
  exact ⟨.of_agree hagree, ha.held, hafter⟩

theorem pop {last : Value} (hl : l.getLast? = some last) :
    HoldsArray (last.links ++ links)
      ((h.addHandles last.references).setElements id l.dropLast.toArray []) id o l.dropLast := by
  let history : History := .nesting
  have hrun := run_pop ha.elementsOf?_eq
  rw [hl] at hrun
  -- What the element refers to is not let go but handed over to the host.
  have hagree := (ha.hosted.agree.runPop (.held ha.held)).2
  rw [hrun, Option.toList_some, valueLinks_singleton] at hagree
  have hobject := (object?_addHandles h last.references id).trans ha.object
  refine ⟨.of_agree hagree, List.mem_append_right _ ha.held, ?_⟩
  rw [Heap.setElements, hobject]
  dsimp only
  rw [List.flatMap_nil, Agree.replaceNode_nil]
  exact object?_eq_some_iff.mpr (node?_setNode_self (object?_eq_some_iff.mp hobject))

theorem setLength {n : Nat} (hy : Yields l (.setLength n) (.done true) (some l')) :
    ∃ k, (HeapM.setLength id n).run h = (true, k) ∧ HoldsArray links k id o l' := by
  have hmax : n ≤ maxLength := by cases hy <;> assumption
  have hresize : Elements.resize l.toArray n = l'.toArray := by
    rw [hy.eq_of_setLength, Elements.resize]
    simp
  have hrun := (run_setLength ha.elementsOf?_eq n).trans (if_neg (Nat.not_lt.mpr hmax))
  have hx := Elements.Exchange.resize l.toArray n
  rw [hresize] at hrun hx
  exact ⟨_, hrun, ha.setElements hx (List.nil_subset _)⟩

/-- **A write that is not refused** gives the array the elements foreseen. -/
theorem perform_of_accepted (hw : w.links ⊆ links) (hy : w.Yields l answer (some l')) :
    ∃ k, (w.perform id).run h = (answer, k) ∧ HoldsArray (answer.links ++ links) k id o l' := by
  have he := ha.elementsOf?_eq
  cases hy with
  | @pushed v hroom =>
    have hrun := (run_push he v).trans (if_neg (Nat.not_le.mpr hroom))
    have hx := Elements.Exchange.push l.toArray v
    rw [List.push_toArray] at hrun hx
    exact ⟨_, run_bind_of_run hrun, ha.setElements hx hw⟩
  | @popped _ v hl =>
    have hlast : l.getLast? = some v := by rw [hl, List.getLast?_concat]
    have hrest : l.dropLast = l' := by rw [hl, List.dropLast_concat]
    have hrun := run_pop he
    rw [hlast] at hrun
    have hk := ha.pop hlast
    rw [hrest] at hrun hk
    refine ⟨_, run_bind_of_run hrun, ?_⟩
    rwa [ArrayAnswer.links, Option.toList_some, valueLinks_singleton]
  | @overwritten index v hi =>
    have hrun := (run_setElement he index v).trans (if_pos hi)
    have hx := Elements.Exchange.overwrite l.toArray index v
    rw [List.setIfInBounds_toArray] at hrun hx
    exact ⟨_, run_bind_of_run hrun, ha.setElements hx hw⟩
  | @padded index v hi hmax =>
    have hrun := (run_setElement he index v).trans
      ((if_neg (Nat.not_lt.mpr hi)).trans (if_neg (Nat.not_le.mpr hmax)))
    have hx : Elements.Exchange l.toArray _ [] v.links := .pad hi v
    have hpad : (Elements.resize l.toArray index).push v =
        (l ++ List.replicate (index - l.length) Value.undefined ++ [v]).toArray := by
      simp [Elements.resize, List.take_of_length_le hi]
    rw [hpad] at hrun hx
    exact ⟨_, run_bind_of_run hrun, ha.setElements hx hw⟩
  | truncated hn hmax =>
    obtain ⟨k, hrun, hk⟩ := ha.setLength (.truncated hn hmax)
    exact ⟨k, run_bind_of_run hrun, hk⟩
  | extended hn hmax =>
    obtain ⟨k, hrun, hk⟩ := ha.setLength (.extended hn hmax)
    exact ⟨k, run_bind_of_run hrun, hk⟩
  | @assigned v n _ hv hl =>
    obtain ⟨k, hlength, hk⟩ := ha.setLength hl
    have hrun := run_assignField_length he v
    rw [HeapM.assignLength, (meansLength_iff.mp hv).1] at hrun
    dsimp only at hrun
    rw [hlength] at hrun
    exact ⟨k, run_bind_of_run hrun, hk⟩

/-- **A write to an array** is what it is to a list. -/
theorem perform (hw : w.links ⊆ links) :
    ∃ answer next k, w.Yields l answer next ∧ (w.perform id).run h = (answer, k) ∧
      HoldsArray (answer.links ++ links) k id o (next.getD l) := by
  obtain ⟨answer, next, hy⟩ := exists_yields l w
  cases next with
  | some l' =>
    obtain ⟨k, hrun, hk⟩ := ha.perform_of_accepted hw hy
    exact ⟨answer, some l', k, hy, hrun, hk⟩
  | none =>
    refine ⟨answer, none, h, hy, run_perform_of_refused ha.elementsOf?_eq hy, ?_⟩
    have hnone : answer.links = [] := by cases hy <;> rfl
    rwa [hnone]

end HoldsArray

theorem Hosted.exists_holdsArray (hh : Hosted links h) (hid : .object id ∈ links)
    (he : h.elementsOf? id = some l.toArray) :
    ∃ o, h.object? id = some o ∧ HoldsArray links h id o l := by
  obtain ⟨o, ho, hx⟩ := Agree.exotic_of_elementsOf? he
  refine ⟨o, ho, hh, hid, ho.trans (congrArg some ?_)⟩
  rw [← hx]

/-! ## Runs -/

theorem ArrayRun.evolves {k : Heap} (hrun : ArrayRun id links h told links' k)
    (ha : HoldsArray links h id o l) (hl : l.length ≤ maxLength) :
    ∃ l', Evolves l told l' ∧ l'.length ≤ maxLength ∧ HoldsArray links' k id o l' := by
  induction hrun generalizing l with
  | nil => exact ⟨l, .nil l, hl, ha⟩
  | write hw hrun rest ih =>
    obtain ⟨answer', next, k', hy, hrun', hk⟩ := ha.perform hw
    obtain ⟨rfl, rfl⟩ := Prod.mk.inj (hrun.symm.trans hrun')
    obtain ⟨l', hrest, hl', hend⟩ := ih hk (hy.length_le hl)
    exact ⟨l', .cons hy hrest, hl', hend⟩
  | aside hg hid hsame rest ih => exact ih ⟨hg, hid, hsame.trans ha.object⟩ hl

/-- **An array is a bounded list.** Let the host hold an array that is not too long, and let it be
written to any number of times, in any order, with whatever else is done in between. Then the answers
and the elements are what the writes make of a list (`ArrayWrite.Evolves`), and that is one list only.
It is not too long at any time; everything else about the array, its plain fields among it, is what it
was; and a write that is refused then changes nothing on the heap. -/
theorem ArrayRun.bounded_list {k : Heap} (hrun : ArrayRun id links h told links' k)
    (ha : HoldsArray links h id o l) (hl : l.length ≤ maxLength) :
    ∃ l', Evolves l told l' ∧ l'.length ≤ maxLength ∧ HoldsArray links' k id o l' ∧
      (∀ told' l'', Evolves l told' l'' → told'.map Prod.fst = told.map Prod.fst →
        told' = told ∧ l'' = l') ∧
      ∀ (w : ArrayWrite) (answer : ArrayAnswer), w.Yields l' answer none →
        (w.perform id).run k = (answer, k) := by
  obtain ⟨l', he, hl', hk⟩ := hrun.evolves ha hl
  refine ⟨l', he, hl', hk, fun told' l'' he' hw => he.unique he' hw, fun w answer hy => ?_⟩
  exact run_perform_of_refused hk.elementsOf?_eq hy

theorem ArrayRun.of_scalars (id : NodeId) (writes : List ArrayWrite)
    (hw : ∀ w ∈ writes, w.links = []) : ∀ links h, ∃ told links' k,
      told.map Prod.fst = writes ∧ ArrayRun id links h told links' k := by
  induction writes with
  | nil => exact fun links h => ⟨[], links, h, rfl, .nil links h⟩
  | cons w rest ih =>
    intro links h
    rcases hrun : (w.perform id).run h with ⟨answer, g⟩
    obtain ⟨told, links', k, htold, hrest⟩ :=
      ih (fun w hm => hw w (List.mem_cons_of_mem _ hm)) (answer.links ++ links) g
    refine ⟨(w, answer) :: told, links', k, congrArg (w :: ·) htold, .write ?_ hrun hrest⟩
    rw [hw w List.mem_cons_self]
    exact List.nil_subset _

def oneTwo : List Step :=
  [⟨.store (.keep (.array [.integer 1, .integer 2])), some "list", none⟩]

/-- An element is added; minus zero empties the array; an element is written behind a gap; and minus one
is no length. The array has no plain field of that name then. -/
theorem ArrayRun.bounded_list_oneTwo :
    let s := (Session.initial.run oneTwo).2
    ∃ links' k, ArrayRun 4 s.links s.heap
      [(.push (.integer 3), .length (some 3)), (.assignLength (.double (.zero true)), .silent),
        (.setElement 1 (.integer 7), .done true), (.assignLength (.integer (-1)), .silent)] links' k ∧
      k.elementsOf? 4 = some #[.undefined, .integer 7] ∧ k.ownPlainField? 4 "length" = none := by
  intro s
  have hheld : Link.object 4 ∈ s.links := by decide +kernel
  have helements : s.heap.elementsOf? 4 = some [.integer 1, .integer 2].toArray := by decide +kernel
  have hplain : s.heap.ownPlainField? 4 "length" = none := by decide +kernel
  obtain ⟨o, ho, ha⟩ := Hosted.exists_holdsArray (Session.hosted oneTwo) hheld helements
  obtain ⟨told, links', k, hwrites, hrun⟩ := ArrayRun.of_scalars 4
    [.push (.integer 3), .assignLength (.double (.zero true)), .setElement 1 (.integer 7),
      .assignLength (.integer (-1))] (by decide) s.links s.heap
  obtain ⟨l', -, -, hk, hunique, -⟩ := hrun.bounded_list ha (by decide)
  have hzero : MeansLength (.double (.zero true)) 0 :=
    meansLength_iff.mpr ⟨by decide +kernel, by decide⟩
  have hminus (n : Nat) : ¬MeansLength (.integer (-1)) n := fun hm => by
    have hnone : Elements.lengthOf? (.integer (-1)) = none := by decide
    cases hnone.symm.trans (meansLength_iff.mp hm).1
  have hevolves : Evolves [.integer 1, .integer 2]
      [(.push (.integer 3), .length (some 3)), (.assignLength (.double (.zero true)), .silent),
        (.setElement 1 (.integer 7), .done true), (.assignLength (.integer (-1)), .silent)]
      [.undefined, .integer 7] :=
    .cons (.pushed (by decide)) (.cons (.assigned hzero (.truncated (by decide) (by decide)))
      (.cons (.padded (by decide) (by decide)) (.cons (.ignored hminus) (.nil _))))
  obtain ⟨rfl, rfl⟩ := hunique _ _ hevolves hwrites.symm
  refine ⟨links', k, hrun, hk.elementsOf?_eq, ?_⟩
  rw [ownPlainField?, hk.object]
  rwa [ownPlainField?, ho] at hplain

end Heap

end ScriptCore
