import ScriptCore.Json.Bridge
import ScriptCore.Proofs.Agreement.Objects

/-!
# Values that stand for JSON

A value represents a JSON value if it is the same scalar, or an object with the same text, the same
elements or the same entries in the same order. An object that was made from a JSON value is younger
than everything in it, so the names of the objects in it fall from the outside to the inside.
-/

namespace ScriptCore

namespace Heap

variable {h k : Heap} {n m id : NodeId} {v : Value} {json : Json} {held : List NodeId}

/-- A value represents a JSON value, with all its objects below `n`. -/
inductive Represents (h : Heap) : NodeId → Value → Json → Prop
  | null {n : NodeId} : Represents h n .null .null
  | boolean {n : NodeId} (b : Bool) : Represents h n (.boolean b) (.boolean b)
  | integer {n : NodeId} (i : Int64) : Represents h n (.integer i) (.integer i)
  | double {n : NodeId} (d : Double) : Represents h n (.double d) (.double d)
  | string {n id : NodeId} {o : Object} {text : String} (hlt : id < n) (ho : h.object? id = some o)
      (hx : o.exotic = .string text) : Represents h n (.object id) (.string text)
  | array {n id : NodeId} {o : Object} {elements : Array Value} {items : List Json} (hlt : id < n)
      (ho : h.object? id = some o) (hx : o.exotic = .array elements)
      (hlength : elements.toList.length = items.length)
      (hi : ∀ a b, (a, b) ∈ elements.toList.zip items → Represents h id a b) :
      Represents h n (.object id) (.array items)
  | object {n id : NodeId} {o : Object} {entries : List (String × Json)} (hlt : id < n)
      (ho : h.object? id = some o) (hx : o.exotic = .ordinary)
      (hlength : o.fields.entries.length = entries.length)
      (hnames : ∀ a b, (a, b) ∈ o.fields.entries.zip entries → a.1 = b.1)
      (he : ∀ a b, (a, b) ∈ o.fields.entries.zip entries → Represents h id a.2 b.2) :
      Represents h n (.object id) (.object entries)

def RepresentsEntry (h : Heap) (n : NodeId) (a : String × Value) (b : String × Json) : Prop :=
  a.1 = b.1 ∧ h.Represents n a.2 b.2

namespace Represents

theorem of_items {o : Object} {elements : Array Value} {items : List Json} (hlt : id < n)
    (ho : h.object? id = some o) (hx : o.exotic = .array elements)
    (hi : List.Forall₂ (h.Represents id) elements.toList items) :
    h.Represents n (.object id) (.array items) :=
  have hzip := List.forall₂_iff_zip.mp hi
  .array hlt ho hx hzip.1 fun _ _ hm => hzip.2 hm

theorem of_entries {o : Object} {entries : List (String × Json)} (hlt : id < n)
    (ho : h.object? id = some o) (hx : o.exotic = .ordinary)
    (he : List.Forall₂ (h.RepresentsEntry id) o.fields.entries entries) :
    h.Represents n (.object id) (.object entries) :=
  have hzip := List.forall₂_iff_zip.mp he
  .object hlt ho hx hzip.1 (fun _ _ hm => (hzip.2 hm).1) fun _ _ hm => (hzip.2 hm).2

theorem mono (hr : h.Represents n v json) (hle : n ≤ m) : h.Represents m v json := by
  cases hr with
  | null => exact .null
  | boolean b => exact .boolean b
  | integer i => exact .integer i
  | double d => exact .double d
  | string hlt ho hx => exact .string (hlt.trans_le hle) ho hx
  | array hlt ho hx hlength hi => exact .array (hlt.trans_le hle) ho hx hlength hi
  | object hlt ho hx hlength hnames he => exact .object (hlt.trans_le hle) ho hx hlength hnames he

theorem isLive_of_link {o : Object} {x : NodeId} (hc : h.Counted held)
    (ho : h.object? id = some o) (hl : .object x ∈ o.links) : h.isLive x = true := by
  refine hc.stored_live (object?_eq_some_iff.mp ho) x ?_
  exact ((Node.object o).mem_references_iff x).mpr ⟨.object x, hl, rfl⟩

/-- **A value goes on representing the same** while the heap grows, as long as it is alive. -/
theorem grows (hr : h.Represents n v json) (hg : Grows h k) (hn : n ≤ h.cells.size)
    (hc : k.Counted held) (hl : ∀ id, v = .object id → k.isLive id = true) :
    k.Represents n v json := by
  have hsame {id : NodeId} {o : Object} (hlt : id < h.cells.size) (ho : h.object? id = some o)
      (hl : k.isLive id = true) : k.object? id = some o :=
    object?_eq_some_iff.mpr ((hg.node?_eq hlt hl).trans (object?_eq_some_iff.mp ho))
  induction hr with
  | null => exact .null
  | boolean b => exact .boolean b
  | integer i => exact .integer i
  | double d => exact .double d
  | string hlt ho hx => exact .string hlt (hsame (hlt.trans_le hn) ho (hl _ rfl)) hx
  | @array n id o elements items hlt ho hx hlength hi ih =>
    have hk := hsame (hlt.trans_le hn) ho (hl _ rfl)
    refine .array hlt hk hx hlength fun a b hm => ih a b hm (hlt.le.trans hn) fun x hx' => ?_
    have ha : a ∈ elements.toList := (List.of_mem_zip hm).1
    refine isLive_of_link hc hk (Agree.mem_links_of_element hx (links_subset_valueLinks ha ?_))
    rw [hx']
    exact List.mem_singleton.mpr rfl
  | @object n id o entries hlt ho hx hlength hnames he ih =>
    have hk := hsame (hlt.trans_le hn) ho (hl _ rfl)
    refine .object hlt hk hx hlength hnames fun a b hm => ih a b hm (hlt.le.trans hn) fun x hx' => ?_
    have ha : a.2 ∈ o.fields.values := Fields.mem_values_iff.mpr ⟨a.1, (List.of_mem_zip hm).1⟩
    refine isLive_of_link hc hk (Object.mem_links_iff.mpr (Or.inr (Or.inl ⟨a.2, ha, ?_⟩)))
    rw [hx']
    exact List.mem_singleton.mpr rfl

end Represents

end Heap

end ScriptCore
