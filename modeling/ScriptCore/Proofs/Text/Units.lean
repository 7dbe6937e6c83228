import Mathlib
import ScriptCore.Text.Utf16
import ScriptCore.Text.Utf8

/-!
# Texts in UTF-16

`Text.Encodes` says what UTF-16 is: a character up to `U+FFFF` is one unit, and a character above is
a high and a low surrogate, told by the number they stand for. Every text has one encoding
(`Text.encodes_iff`), and counting its units and finding one of them agree with it, also where the
bytes of an ASCII text are taken for it (`Text.unitCount_eq`, `Text.unitAt?_eq`).

The units of a text one by one, each as a text, make up the text again if it has no character above
`U+FFFF` (`Text.join_charAt`). Of a pair of surrogates neither half is a character, so such a
character comes out as two replacement characters.
-/

namespace ScriptCore

namespace Text

/-- Units are the UTF-16 encoding of characters. -/
inductive Encodes : List Nat → List Char → Prop
  | nil : Encodes [] []
  | single {c : Char} {cs : List Char} {us : List Nat} (hc : c.toNat ≤ 0xFFFF) (hs : Encodes us cs) :
    Encodes (c.toNat :: us) (c :: cs)
  | pair {c : Char} {cs : List Char} {us : List Nat} {high low : Nat}
    (hhigh : 0xD800 ≤ high ∧ high ≤ 0xDBFF) (hlow : 0xDC00 ≤ low ∧ low ≤ 0xDFFF)
    (hc : c.toNat = 0x10000 + (high - 0xD800) * 0x400 + (low - 0xDC00)) (hs : Encodes us cs) :
    Encodes (high :: low :: us) (c :: cs)

/-- The unit of a text at an index as a text of its own, which is empty past the end. -/
def charAt (text : String) (index : Nat) : String := ((unitAt? text index).map ofUnit).getD ""

/-- What is left of a character when its units are taken one by one. -/
def halves (c : Char) : List Char := if c.toNat ≤ 0xFFFF then [c] else [replacement, replacement]

variable {c : Char} {cs : List Char} {us : List Nat} {text s t : String} {u i : Nat}

/-! ## The encoding -/

theorem toNat_lt (c : Char) : c.toNat < 0x110000 := by
  have hvalid : c.toNat.isValidChar := c.valid
  unfold Nat.isValidChar at hvalid
  omega

theorem not_half (c : Char) : c.toNat < 0xD800 ∨ 0xDFFF < c.toNat := by
  have hvalid : c.toNat.isValidChar := c.valid
  unfold Nat.isValidChar at hvalid
  omega

theorem unitsOfChar_single (hc : c.toNat ≤ 0xFFFF) : unitsOfChar c = [c.toNat] :=
  if_pos (Nat.lt_succ_of_le hc)

theorem unitsOfChar_pair (hc : 0xFFFF < c.toNat) :
    unitsOfChar c =
      [0xD800 + (c.toNat - 0x10000) / 0x400, 0xDC00 + (c.toNat - 0x10000) % 0x400] :=
  if_neg (Nat.not_lt_of_ge hc)

theorem encodes_units (cs : List Char) : Encodes (cs.flatMap unitsOfChar) cs := by
  induction cs with
  | nil => exact .nil
  | cons c cs ih =>
    rw [List.flatMap_cons]
    by_cases hc : c.toNat ≤ 0xFFFF
    · rw [unitsOfChar_single hc]
      exact .single hc ih
    · have hlt := toNat_lt c
      rw [unitsOfChar_pair (Nat.lt_of_not_le hc)]
      refine .pair ?_ ?_ ?_ ih <;> omega

theorem Encodes.eq (he : Encodes us cs) : us = cs.flatMap unitsOfChar := by
  induction he with
  | nil => rfl
  | single hc _ ih => rw [List.flatMap_cons, unitsOfChar_single hc, ← ih, List.singleton_append]
  | @pair c cs us high low hhigh hlow hc _ ih =>
    have hhalves : high = 0xD800 + (c.toNat - 0x10000) / 0x400 ∧
        low = 0xDC00 + (c.toNat - 0x10000) % 0x400 := by omega
    rw [List.flatMap_cons, unitsOfChar_pair (by omega), ← ih, hhalves.1, hhalves.2]
    rfl

/-- **Every text has one encoding**, its units. -/
theorem encodes_iff : Encodes us text.toList ↔ us = units text :=
  ⟨Encodes.eq, fun he => he ▸ encodes_units _⟩

theorem lt_of_mem_unitsOfChar (hu : u ∈ unitsOfChar c) : u ≤ 0xFFFF := by
  by_cases hc : c.toNat ≤ 0xFFFF
  · rw [unitsOfChar_single hc, List.mem_singleton] at hu
    omega
  · have hlt := toNat_lt c
    rw [unitsOfChar_pair (Nat.lt_of_not_le hc)] at hu
    simp only [List.mem_cons, List.not_mem_nil, or_false] at hu
    omega

theorem lt_of_mem_units (hu : u ∈ units text) : u ≤ 0xFFFF := by
  obtain ⟨c, _, hu⟩ := List.mem_flatMap.mp hu
  exact lt_of_mem_unitsOfChar hu

theorem units_append (s t : String) : units (s ++ t) = units s ++ units t := by
  rw [units, String.toList_append, List.flatMap_append]
  rfl

/-! ## ASCII texts -/

theorem utf8EncodeChar_ascii (hc : c.toNat < 0x80) :
    String.utf8EncodeChar c = [UInt8.ofNat c.toNat] :=
  if_pos (Nat.le_of_lt_succ hc)

theorem bytes_ascii (hcs : ∀ c ∈ cs, c.toNat < 0x80) :
    (cs.flatMap String.utf8EncodeChar).map UInt8.toNat = cs.flatMap unitsOfChar := by
  induction cs with
  | nil => rfl
  | cons c cs ih =>
    have hc : c.toNat < 0x80 := hcs c (List.mem_cons_self ..)
    rw [List.flatMap_cons, List.flatMap_cons, List.map_append,
      ih fun d hd => hcs d (List.mem_cons_of_mem _ hd), utf8EncodeChar_ascii hc,
      unitsOfChar_single (by omega), List.map_singleton, UInt8.toNat_ofNat_of_lt' (hc.trans (by decide))]

theorem toUTF8_data (text : String) :
    text.toUTF8.data = (text.toList.flatMap String.utf8EncodeChar).toArray := by
  rw [← List.data_toByteArray]
  exact congrArg ByteArray.data String.utf8Encode_toList.symm

/-- **The bytes of an ASCII text are its units.** -/
theorem bytes_eq_units (ha : isAscii text = true) :
    text.toUTF8.data.toList.map UInt8.toNat = units text := by
  rw [toUTF8_data]
  refine bytes_ascii fun c hc => ?_
  exact of_decide_eq_true (List.all_eq_true.mp ha c hc)

/-! ## Counting and finding -/

/-- **The length of a text** is that of its encoding. -/
theorem unitCount_eq (text : String) : unitCount text = (units text).length := by
  unfold unitCount
  split
  · next ha =>
    rw [← bytes_eq_units ha, List.length_map, Array.length_toList]
    rfl
  · rfl

/-- **The unit at an index** is that of the encoding. -/
theorem unitAt?_eq (text : String) (index : Nat) : unitAt? text index = (units text)[index]? := by
  unfold unitAt?
  split
  · next ha => rw [← bytes_eq_units ha, List.getElem?_map, Array.getElem?_toList]
  · rfl

theorem unitCount_append (s t : String) : unitCount (s ++ t) = unitCount s + unitCount t := by
  simp only [unitCount_eq, units_append, List.length_append]

/-! ## One unit as a text -/

theorem toNat_ofNat_unit (hu : u ≤ 0xFFFF) (hhalf : ¬ (0xD800 ≤ u ∧ u ≤ 0xDFFF)) :
    (Char.ofNat u).toNat = u := by
  rw [Char.toNat_ofNat, if_pos]
  unfold Nat.isValidChar
  omega

theorem ofUnit_of_half (hu : 0xD800 ≤ u ∧ u ≤ 0xDFFF) :
    ofUnit u = String.singleton replacement := by
  simp [ofUnit, hu, replacement]

theorem ofUnit_of_char (hu : ¬ (0xD800 ≤ u ∧ u ≤ 0xDFFF)) :
    ofUnit u = String.singleton (Char.ofNat u) := by
  have hand : (decide (0xD800 ≤ u) && decide (u ≤ 0xDFFF)) = false := by
    simpa using hu
  simp only [ofUnit, hand, Bool.false_eq_true, if_false]

theorem unitCount_singleton (hc : c.toNat ≤ 0xFFFF) : unitCount (String.singleton c) = 1 := by
  rw [unitCount_eq, units, String.toList_singleton, List.flatMap_singleton, unitsOfChar_single hc,
    List.length_singleton]

theorem unitCount_ofUnit (hu : u ≤ 0xFFFF) : unitCount (ofUnit u) = 1 := by
  by_cases hhalf : 0xD800 ≤ u ∧ u ≤ 0xDFFF
  · rw [ofUnit_of_half hhalf, unitCount_singleton (by decide)]
  · rw [ofUnit_of_char hhalf, unitCount_singleton ((toNat_ofNat_unit hu hhalf).trans_le hu)]

theorem unitCount_charAt (hi : i < unitCount text) : unitCount (charAt text i) = 1 := by
  rw [unitCount_eq] at hi
  rw [charAt, unitAt?_eq, List.getElem?_eq_getElem hi]
  exact unitCount_ofUnit (lt_of_mem_units (List.getElem_mem hi))

theorem charAt_of_le (hi : unitCount text ≤ i) : charAt text i = "" := by
  rw [unitCount_eq] at hi
  rw [charAt, unitAt?_eq, List.getElem?_eq_none hi]
  rfl

/-! ## All units in order -/

theorem map_charAt (text : String) :
    (List.range (unitCount text)).map (charAt text) = (units text).map ofUnit := by
  refine List.ext_getElem? fun i => ?_
  rw [List.getElem?_map, List.getElem?_map, unitCount_eq]
  by_cases hi : i < (units text).length
  · rw [List.getElem?_range hi, List.getElem?_eq_getElem hi, Option.map_some, Option.map_some,
      charAt, unitAt?_eq, List.getElem?_eq_getElem hi, Option.map_some, Option.getD_some]
  · rw [List.getElem?_eq_none (by simpa using hi), List.getElem?_eq_none (by omega)]
    rfl

theorem flatMap_ofUnit_unitsOfChar (c : Char) :
    (unitsOfChar c).flatMap (fun u => (ofUnit u).toList) = halves c := by
  unfold halves
  by_cases hc : c.toNat ≤ 0xFFFF
  · have hhalf := not_half c
    rw [unitsOfChar_single hc, if_pos hc, List.flatMap_singleton, ofUnit_of_char (by omega),
      Char.ofNat_toNat, String.toList_singleton]
  · have hlt := toNat_lt c
    rw [unitsOfChar_pair (Nat.lt_of_not_le hc), if_neg hc, List.flatMap_cons,
      List.flatMap_singleton, ofUnit_of_half (by omega), ofUnit_of_half (by omega),
      String.toList_singleton]
    rfl

/-- **The units of a text in order**, each as a text, are what is left of its characters. -/
theorem join_charAt (text : String) :
    String.join ((List.range (unitCount text)).map (charAt text)) =
      String.ofList (text.toList.flatMap halves) := by
  refine String.toList_inj.mp ?_
  rw [map_charAt, String.toList_join, String.toList_ofList, List.flatMap_map, units,
    List.flatMap_assoc]
  exact congrArg (text.toList.flatMap ·) (funext flatMap_ofUnit_unitsOfChar)

theorem flatMap_halves (hcs : ∀ c ∈ cs, c.toNat ≤ 0xFFFF) : cs.flatMap halves = cs := by
  induction cs with
  | nil => rfl
  | cons c cs ih =>
    rw [List.flatMap_cons, halves, if_pos (hcs c (List.mem_cons_self ..)),
      ih fun d hd => hcs d (List.mem_cons_of_mem _ hd), List.singleton_append]

end Text

end ScriptCore
