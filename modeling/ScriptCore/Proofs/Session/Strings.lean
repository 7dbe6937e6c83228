import ScriptCore.Operator
import ScriptCore.Proofs.Agreement.WholeSteps
import ScriptCore.Proofs.Comparison.Pairs
import ScriptCore.Proofs.Object.Walks
import ScriptCore.Proofs.Text.Units

/-!
# Strings in a session

What a host is told of a string object is about the UTF-16 encoding of its text, whatever the session
has done (`Session.strings_in_units`): how long it is, the unit at an index, that unit as a string,
and how long the sum of two strings is.
-/

namespace ScriptCore

namespace Heap

variable {h k : Heap} {a b : NodeId} {s t : String} {links : List Link}

theorem exotic_of_text? (ha : h.text? (.object a) = some s) :
    ∃ o, h.object? a = some o ∧ o.exotic = .string s := by
  obtain ⟨_, o, he, ho, hs⟩ := object_of_bind ha
  obtain rfl := Value.object.inj he
  refine ⟨o, ho, ?_⟩
  simp only [Object.text?] at hs
  split at hs
  · next he => rw [he, Option.some.inj hs]
  · cases hs

theorem text?_of_exotic {o : Object} (ho : h.object? a = some o) (hs : o.exotic = .string s) :
    h.text? (.object a) = some s := by
  have hobject : h.objectOf? (.object a) = some o := ho
  rw [text?, hobject, Option.bind_some, Object.text?, hs]

theorem lookupField_length (ha : h.text? (.object a) = some s) :
    h.lookupField a "length" = .ofNat (Text.unitCount s) := by
  obtain ⟨o, ho, hs⟩ := exotic_of_text? ha
  refine lookupField_of_ownField? (by decide) ho ?_
  rw [Object.ownField?, if_pos rfl, Object.ownLength?, hs]
  rfl

theorem snapshot_of_text? (ha : h.text? (.object a) = some s) :
    h.snapshot (.object a) = .text s := by
  obtain ⟨o, ho, hs⟩ := exotic_of_text? ha
  rw [snapshot, snapshotWithin]
  simp only [ho, hs]

theorem binary_add_strings (ha : h.text? (.object a) = some s) (hb : h.text? (.object b) = some t) :
    h.binary .add (.object a) (.object b) = .text (s ++ t) := by
  have hjoins : h.joinsText (.object a) (.object b) = true := by
    rw [joinsText, isString_iff.mpr ⟨s, ha⟩, Bool.true_or, Bool.true_or, Bool.true_or]
  rw [binary, if_neg (by simp), if_pos ⟨rfl, hjoins⟩, toText_of_text? ha, toText_of_text? hb]

theorem Agree.text?_newText [History] (ha : Agree links h h) (text : String) :
    ∃ id k, (HeapM.newText text).run h = (.object id, k) ∧ k.text? (.object id) = some text := by
  obtain ⟨_, _, o, hmade, hs⟩ := ha.runNewString text
  exact ⟨_, _, rfl, text?_of_exotic hmade.object hs⟩

end Heap

namespace ObjectRequest

variable {session : Session} {a : NodeId} {s : String}

theorem run_charFacts (index : Nat) {k : Heap} {id : NodeId}
    (ha : session.heap.text? (.object a) = some s)
    (hnew : (HeapM.newText (Text.charAt s index)).run session.heap = (.object id, k))
    (hid : k.text? (.object id) = some (Text.charAt s index)) :
    (charFacts a index).run.run session =
      (.ok (.facts [("char", .text (Text.charAt s index)),
          ("code", .ofNat ((Text.unitAt? s index).getD 0))]),
        { session with
          runtime := { session.runtime with heap := k }
          temporaries := session.temporaries ++ [.object id] }) := by
  have hheap : StepM.heap.run.run session = (.ok session.heap, session) := rfl
  have hunit : ((session.heap.text? (.object a)).bind fun text => Text.unitAt? text index) =
      Text.unitAt? s index := by rw [ha, Option.bind_some]
  have hshown : k.snapshot (.object id) = .text (Text.charAt s index) := Heap.snapshot_of_text? hid
  rw [charFacts, StepM.run_bind_of_ok hheap]
  dsimp only
  rw [hunit, ← hshown]
  exact StepM.run_bind_of_ok (StepM.run_onHeap_of_run hnew)

end ObjectRequest

namespace Session

/-- **Strings are read in UTF-16 units**, in every session. There is one encoding of the text of a
string. The length of the string is that of the encoding, and its code at an index is the unit
there, or zero past the end. Its character at an index is a new string: of one unit, or empty past
the end. All its characters in order make up the text again, except for characters above `U+FFFF`.
The sum of two strings has both texts and both lengths. -/
theorem strings_in_units (steps : List Step) {a b : NodeId} {s t : String}
    (ha : (Session.initial.run steps).2.heap.text? (.object a) = some s)
    (hb : (Session.initial.run steps).2.heap.text? (.object b) = some t) :
    ∃ us : List Nat, (∀ vs, Text.Encodes vs s.toList ↔ vs = us) ∧
      Text.unitCount s = us.length ∧
      (Session.initial.run steps).2.heap.lookupField a "length" = .ofNat us.length ∧
      (∀ index, ∃ char after,
        (ObjectRequest.charFacts a index).run.run (Session.initial.run steps).2 =
          (.ok (.facts [("char", .text (Text.charAt s index)),
            ("code", .ofNat (us[index]?.getD 0))]), after) ∧
        after.temporaries = (Session.initial.run steps).2.temporaries ++ [.object char] ∧
        after.heap.text? (.object char) = some (Text.charAt s index) ∧
        after.heap.lookupField char "length" = .ofNat (if index < us.length then 1 else 0) ∧
        (us.length ≤ index → Text.charAt s index = "")) ∧
      String.join ((List.range us.length).map (Text.charAt s)) =
        String.ofList (s.toList.flatMap Text.halves) ∧
      ((∀ c ∈ s.toList, c.toNat ≤ 0xFFFF) →
        String.join ((List.range us.length).map (Text.charAt s)) = s) ∧
      ∃ sum k, (HeapM.binary .add (.object a) (.object b)).run
          (Session.initial.run steps).2.heap = (.object sum, k) ∧
        k.text? (.object sum) = some (s ++ t) ∧
        k.lookupField sum "length" = .ofNat (Text.unitCount s + Text.unitCount t) := by
  have hheap := (agree_run steps).heap
  have hcount : Text.unitCount s = (Text.units s).length := Text.unitCount_eq s
  have hjoin := Text.join_charAt s
  rw [hcount] at hjoin
  refine ⟨Text.units s, fun vs => Text.encodes_iff, hcount, ?_, fun index => ?_, hjoin,
    fun hcs => ?_, ?_⟩
  · rw [Heap.lookupField_length ha, hcount]
  · obtain ⟨char, k, hnew, hchar⟩ := hheap.text?_newText (Text.charAt s index)
    have hunit := Text.unitAt?_eq s index
    have hrun := ObjectRequest.run_charFacts index ha hnew hchar
    rw [hunit] at hrun
    refine ⟨char, _, hrun, rfl, hchar, ?_, fun hle => Text.charAt_of_le (hcount.trans_le hle)⟩
    refine (Heap.lookupField_length hchar).trans (congrArg Value.ofNat ?_)
    split
    · next hlt => exact Text.unitCount_charAt (hlt.trans_eq hcount.symm)
    · next hle =>
      rw [Text.charAt_of_le (hcount.trans_le (Nat.le_of_not_lt hle))]
      rfl
  · rw [hjoin, Text.flatMap_halves hcs, String.ofList_toList]
  · obtain ⟨sum, k, hnew, hsum⟩ := hheap.text?_newText (s ++ t)
    refine ⟨sum, k, ?_, hsum, ?_⟩
    · rw [HeapM.binary, run_get_bind, Heap.binary_add_strings ha hb]
      exact hnew
    · rw [Heap.lookupField_length hsum, Text.unitCount_append]

/-- A string of ASCII characters, and one with a pair of surrogates. -/
def spelled : List Step :=
  [⟨.store (.keep (.text "ab")), some "plain", none⟩,
    ⟨.store (.keep (.text "é😀")), some "paired", none⟩]

/-- A pair of surrogates comes apart, and counts twice in a sum. -/
theorem strings_in_units_paired :
    (initial.run spelled).2.heap.lookupField 5 "length" = .ofNat 3 ∧
      (∃ char after, (ObjectRequest.charFacts 5 1).run.run (initial.run spelled).2 =
          (.ok (.facts [("char", .text (Text.charAt "é😀" 1)), ("code", .ofNat 0xD83D)]), after) ∧
        after.heap.lookupField char "length" = .ofNat 1) ∧
      String.join ((List.range 3).map (Text.charAt "é😀")) =
        String.ofList ['é', Text.replacement, Text.replacement] ∧
      ∃ sum k, (HeapM.binary .add (.object 5) (.object 4)).run (initial.run spelled).2.heap =
          (.object sum, k) ∧
        k.text? (.object sum) = some "é😀ab" ∧ k.lookupField sum "length" = .ofNat 5 := by
  obtain ⟨us, hus, -, hlength, hchars, hjoin, -, sum, k, hrun, htext, hsum⟩ :=
    strings_in_units spelled (a := 5) (b := 4) (s := "é😀") (t := "ab") (by decide +kernel)
      (by decide +kernel)
  obtain rfl : [0xE9, 0xD83D, 0xDE00] = us :=
    (hus _).mp (Text.encodes_iff.mpr (by decide +kernel))
  refine ⟨hlength, ?_, hjoin.trans (by decide +kernel), sum, k, hrun, htext.trans (by decide +kernel),
    hsum.trans (by decide +kernel)⟩
  obtain ⟨char, after, hchar, -, -, hone, -⟩ := hchars 1
  exact ⟨char, after, hchar, hone⟩

end Session

end ScriptCore
