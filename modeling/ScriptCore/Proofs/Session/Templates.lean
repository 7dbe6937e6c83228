import ScriptCore.Proofs.Comparison.Pairs
import ScriptCore.Proofs.Json.Texts
import ScriptCore.Proofs.Scopes.Copies

/-!
# Templates of compiled functions

A written value **describes** a template if it is an object with the four parts of the template under
their names, in any order and among others, or an array of them in order; parts that are what is taken
for granted may be missing (`Template.Describes`). Whatever is read as such a value is read as that
template (`Template.ofText_of_describes`), so the text that a template is written as is read back
(`Template.ofText_toText`).

A compiled function has the template of its name, parameters, bytecode and mark, and nothing else has
one (`Heap.template?_eq_some_iff`). A function made from a template is not bound and has no scope. It
is level with the function that the template was taken from (`Heap.Hosted.keepsTemplates`).
-/

namespace ScriptCore

namespace Template

variable {t : Template} {w : Written} {cs : List Char} {f : Callable}

/-! ## Written templates -/

def parts (t : Template) : List (String × Written) := [
  ("name", .string t.name),
  ("parameter_names", .array (t.parameterNames.map fun p => .string (some p))),
  ("bytecode", .array (t.bytecode.map fun b => .natural b.toNat)),
  ("is_constructor", .boolean t.isConstructor)]

def takenForGranted : List (String × Written) :=
  [("parameter_names", .array []), ("is_constructor", .boolean false)]

/-- A part is there, once, or it is missing and taken for granted. -/
def HasPart (entries : List (Option String × Written)) (part : String × Written) : Prop :=
  Written.valuesAt part.1 entries = [part.2] ∨
    Written.valuesAt part.1 entries = [] ∧ part ∈ takenForGranted

/-- **The written forms of a template.** -/
inductive Describes (t : Template) : Written → Prop where
  | object {entries : List (Option String × Written)} : (∀ e ∈ entries, e.1.isSome) →
    (∀ part ∈ t.parts, HasPart entries part) → Describes t (.object entries)
  | array : Describes t (.array (t.parts.map Prod.snd))
  | shortArray : t.isConstructor = false → Describes t (.array ((t.parts.take 3).map Prod.snd))

theorem texts?_array (texts : List String) :
    texts? (.array (texts.map fun s => .string (some s))) = some texts := by
  rw [texts?, Written.items, Option.bind_some]
  induction texts with
  | nil => rfl
  | cons s texts ih =>
    rw [List.map_cons, List.mapM_cons, ih]
    rfl

theorem bytes?_array (bytes : List UInt8) :
    bytes? (.array (bytes.map fun b => .natural b.toNat)) = some bytes := by
  rw [bytes?, Written.items, Option.bind_some]
  induction bytes with
  | nil => rfl
  | cons b bytes ih =>
    rw [List.map_cons, List.mapM_cons, ih, Written.count?_natural b.toNat_lt, Option.map_some,
      UInt8.ofNat_toNat]
    rfl

theorem HasPart.exists_valueAt? {entries : List (Option String × Written)} {key : String}
    {v : Written} (hp : HasPart entries (key, v)) : ∃ v?, Written.valueAt? key entries = some v? ∧
      (v? = some v ∨ v? = none ∧ (key, v) ∈ takenForGranted) := by
  rcases hp with hp | ⟨hp, hgranted⟩
  · exact ⟨some v, by rw [Written.valueAt?, hp], Or.inl rfl⟩
  · exact ⟨none, by rw [Written.valueAt?, hp], Or.inr ⟨rfl, hgranted⟩⟩

/-- **What describes a template** is read as that template. -/
theorem ofWritten?_of_describes (hd : t.Describes w) : ofWritten? w = some t := by
  have htexts := texts?_array t.parameterNames
  have hbytes := bytes?_array t.bytecode
  cases hd with
  | array => simp [ofWritten?, parts, ofItems?, Written.text?, Written.boolean?, htexts, hbytes]
  | shortArray hc =>
    simp only [ofWritten?, parts, ofItems?, Written.text?, htexts, hbytes, List.take_succ_cons,
      List.take_zero, List.map_cons, List.map_nil, Option.bind_eq_bind, Option.bind_some]
    rw [← hc]
    rfl
  | @object entries hnames hparts =>
    have hnone : (entries.any fun entry => entry.1.isNone) = false := by
      rw [List.any_eq_false]
      intro e he
      simp [Option.ne_none_iff_isSome.mpr (hnames e he)]
    simp only [parts, List.forall_mem_cons] at hparts
    obtain ⟨hname, hparams, hbytecode, hmark, -⟩ := hparts
    obtain ⟨_, hname, rfl | ⟨-, hgranted⟩⟩ := hname.exists_valueAt?
    case inr => simp [takenForGranted] at hgranted
    obtain ⟨_, hbytecode, rfl | ⟨-, hgranted⟩⟩ := hbytecode.exists_valueAt?
    case inr => simp [takenForGranted] at hgranted
    obtain ⟨params?, hparams, hread⟩ := hparams.exists_valueAt?
    have hparamsRead : (params?.map texts?).getD (some []) = some t.parameterNames := by
      rcases hread with rfl | ⟨rfl, hgranted⟩
      · exact htexts
      · have hnil : t.parameterNames = [] := by simpa [takenForGranted] using hgranted
        rw [hnil]
        rfl
    obtain ⟨mark?, hmark, hread⟩ := hmark.exists_valueAt?
    have hmarkRead : (mark?.map Written.boolean?).getD (some false) = some t.isConstructor := by
      rcases hread with rfl | ⟨rfl, hgranted⟩
      · rfl
      · have hfalse : t.isConstructor = false := by simpa [takenForGranted] using hgranted
        rw [hfalse]
        rfl
    simp [ofWritten?, ofEntries?, hnone, hname, hbytecode, hparams, hparamsRead, hmark, hmarkRead,
      Written.text?, hbytes]

/-- **Text is read as the template** that what it writes describes. -/
theorem ofText_of_describes (hr : Written.Reads cs w) (hd : t.Describes w) :
    ofText (String.ofList cs) = some t := by
  rw [ofText, Written.ofText_of_reads hr, Option.bind_some, ofWritten?_of_describes hd]

/-- The parts of a template by their names, with the texts that write them. -/
def texts (t : Template) : List (String × List Char × Written) := [
  ("name", Json.quote t.name, .string t.name),
  ("parameter_names", Json.bracketed (t.parameterNames.map Json.quote),
    .array (t.parameterNames.map fun p => .string (some p))),
  ("bytecode", Json.bracketed (t.bytecode.map fun b => Nat.toDigits 10 b.toNat),
    .array (t.bytecode.map fun b => .natural b.toNat)),
  ("is_constructor", if t.isConstructor then "true".toList else "false".toList,
    .boolean t.isConstructor)]

theorem reads_texts (t : Template) : ∀ part ∈ t.texts, Written.Reads part.2.1 part.2.2 := by
  simp only [texts, List.forall_mem_cons]
  refine ⟨Written.reads_quote _, Written.reads_bracketed fun _ _ => Written.reads_quote _,
    Written.reads_bracketed fun _ _ => Written.reads_natural _, Written.reads_boolean _, ?_⟩
  exact fun _ h => absurd h List.not_mem_nil

/-- **A template that is written is read back.** -/
theorem ofText_toText (t : Template) : ofText t.toText = some t := by
  have hreads := Written.reads_object Prod.fst t.reads_texts (List.cons_ne_nil _ _)
  refine ofText_of_describes hreads (.object ?_ ?_)
  · intro e he
    obtain ⟨part, -, rfl⟩ := List.mem_map.mp he
    rfl
  · simp only [parts, texts, List.forall_mem_cons, HasPart]
    simp [Written.valuesAt]

/-! ## Templates and callables -/

theorem ofCallable?_eq_some_iff : ofCallable? f = some t ↔
    (∃ scope, f.body = .compiled t.bytecode scope) ∧ f.name = t.name ∧ f.params = t.parameterNames ∧
      f.isConstructor = t.isConstructor := by
  obtain ⟨name, params, bytecode, isConstructor⟩ := t
  cases hbody : f.body <;> simp [ofCallable?, Callable.bytecode?, hbody]
  tauto

theorem level_callable (hf : ofCallable? f = some t) : t.callable.Level f := by
  obtain ⟨⟨scope, hbody⟩, hname, -, hmark⟩ := ofCallable?_eq_some_iff.mp hf
  rw [Callable.level_iff, Callable.identity, Callable.identity, hbody, hname, hmark]
  rfl

end Template

namespace Heap

variable {h k : Heap} {id : NodeId} {t : Template} {f : Callable} {bytecode : List UInt8}
  {links : List Link} {bound : Option NodeId}

/-- **The template of a compiled function**, which no other object has. -/
theorem template?_eq_some_iff : h.template? id = some t ↔ ∃ f scope, h.callableOf? id = some f ∧
    f.body = .compiled t.bytecode scope ∧ f.name = t.name ∧ f.params = t.parameterNames ∧
      f.isConstructor = t.isConstructor := by
  simp only [template?, Option.bind_eq_some_iff, Template.ofCallable?_eq_some_iff]
  tauto

theorem template?_eq_none_iff : h.template? id = none ↔
    ¬∃ f bytecode scope, h.callableOf? id = some f ∧ f.body = .compiled bytecode scope := by
  rw [Option.eq_none_iff_forall_ne_some]
  constructor
  · rintro hnone ⟨f, bytecode, scope, hf, hbody⟩
    exact hnone ⟨f.name, f.params, bytecode, f.isConstructor⟩
      (template?_eq_some_iff.mpr ⟨f, scope, hf, hbody, rfl, rfl, rfl⟩)
  · intro hno t ht
    obtain ⟨f, scope, hf, hbody, -⟩ := template?_eq_some_iff.mp ht
    exact hno ⟨f, t.bytecode, scope, hf, hbody⟩

/-- **What is asked of templates** on a heap. The text of a template is read back as the template, and
so is every text that writes what describes it. A function can be made of every template, which has
that template. A compiled function has a template, and the function made of that is not bound and
has no scope, but is level with it and the same otherwise. What is no compiled function has none. -/
structure KeepsTemplates (links : List Link) (h : Heap) : Prop where
  written : ∀ t : Template, Template.ofText t.toText = some t
  described : ∀ (t : Template) cs w, Written.Reads cs w → t.Describes w →
    Template.ofText (String.ofList cs) = some t
  made : ∀ t : Template, ∃ a k, (HeapM.newFromTemplate t).run h = (a, k) ∧
    Hosted (.object a :: links) k ∧ h.cells.size ≤ a ∧ k.callableOf? a = some t.callable ∧
      k.template? a = some t
  remade : ∀ (id : NodeId) (f : Callable) (bytecode : List UInt8) (scope : Option NodeId),
    .object id ∈ links → h.callableOf? id = some f → f.body = .compiled bytecode scope →
      ∃ t a k, h.template? id = some t ∧ (HeapM.newFromTemplate t).run h = (a, k) ∧ a ≠ id ∧
        k.callableOf? a =
          some ⟨f.name, f.params, f.isConstructor, none, .compiled bytecode none⟩ ∧
        k.callableOf? id = some f ∧ k.compare (.object a) (.object id) = .eq ∧ t.callable.Level f
  none_iff : ∀ id : NodeId, h.template? id = none ↔
    ¬∃ f bytecode scope, h.callableOf? id = some f ∧ f.body = .compiled bytecode scope

namespace Hosted

variable (hh : Hosted links h)

include hh

/-- **A function can be made of every template.** -/
theorem newFromTemplate (t : Template) :
    ∃ a k, (HeapM.newFromTemplate t).run h = (a, k) ∧ Hosted (.object a :: links) k ∧
      MadeFunction h k a t.callable := by
  have hnone : t.callable.links = [] := rfl
  obtain ⟨hk, hm⟩ := hh.newFunction (hnone ▸ List.nil_subset links)
  rw [HeapM.newFromTemplate]
  rcases hrun : (HeapM.newFunction t.callable).run h with ⟨a, k⟩
  rw [hrun] at hk hm
  exact ⟨a, k, rfl, hk, hm⟩

theorem remade (hid : .object id ∈ links) (hf : h.callableOf? id = some f)
    (ht : Template.ofCallable? f = some t) :
    ∃ a k, (HeapM.newFromTemplate t).run h = (a, k) ∧ a ≠ id ∧
      k.callableOf? a = some t.callable ∧ k.callableOf? id = some f ∧
      k.compare (.object a) (.object id) = .eq := by
  obtain ⟨a, k, hrun, hk, hm⟩ := hh.newFromTemplate t
  have hlt : id < h.cells.size := lt_size_of_isLive (hh.has _ hid).isLive
  have hlive : k.isLive id = true := (hk.has _ (List.mem_cons_of_mem _ hid)).isLive
  have hkept : k.callableOf? id = some f := by
    rw [callableOf?, hm.grows.object?_eq hlt hlive]
    exact hf
  refine ⟨a, k, hrun, ?_, hm.callable, hkept, ?_⟩
  · rintro rfl
    exact absurd hm.fresh (Nat.not_le_of_lt hlt)
  · have hpair : k.compareWithin Comparison.maxDepth (.object a) (.object id) =
        t.callable.compare k.places f := compareWithin_of_callable? hm.callable hkept
    rw [compare, hpair]
    exact Template.level_callable ht Nat k.places

/-- **Templates are kept.** -/
theorem keepsTemplates : KeepsTemplates links h where
  written := Template.ofText_toText
  described t cs w hr hd := Template.ofText_of_describes hr hd
  made t := by
    obtain ⟨a, k, hrun, hk, hm⟩ := hh.newFromTemplate t
    refine ⟨a, k, hrun, hk, hm.fresh, hm.callable, ?_⟩
    rw [template?, hm.callable]
    rfl
  remade id f bytecode scope hid hf hbody := by
    have ht : Template.ofCallable? f = some ⟨f.name, f.params, bytecode, f.isConstructor⟩ :=
      Template.ofCallable?_eq_some_iff.mpr ⟨⟨scope, hbody⟩, rfl, rfl, rfl⟩
    obtain ⟨a, k, hrun, hne, hmade, hkept, hlevel⟩ := hh.remade hid hf ht
    refine ⟨_, a, k, ?_, hrun, hne, hmade, hkept, hlevel, Template.level_callable ht⟩
    rw [template?, hf, Option.bind_some, ht]
  none_iff id := template?_eq_none_iff

end Hosted

/-- A class with a name to be quoted and a parameter twice, and a copy of it that is bound. -/
def classCopied : List Step :=
  [⟨.scope (.create "scope" none), none, none⟩,
    ⟨.function (.create "größe\n\"1\"" ["x", "", "x"] true (.compiled "run")), some "class", none⟩,
    ⟨.function (.copyCompiled (.register "class") "scope"), some "copy", none⟩,
    ⟨.function (.bindThis (.register "copy") (.integer 1)), none, none⟩]

def classTemplate : Template := ⟨"größe\n\"1\"", ["x", "", "x"], [114, 117, 110], true⟩

/-- The bound copy has the template, and what is made of that is level with it, but not bound. -/
theorem keepsTemplates_boundCopy :
    let s := (Session.initial.run classCopied).2
    Hosted s.links s.heap ∧ Template.ofText classTemplate.toText = some classTemplate ∧
      ∃ f a k, s.heap.callableOf? 7 = some f ∧ f.boundThis = some (.integer 1) ∧
        s.heap.template? 7 = some classTemplate ∧
        (HeapM.newFromTemplate classTemplate).run s.heap = (a, k) ∧
        k.callableOf? a = some classTemplate.callable ∧
        k.compare (.object a) (.object 7) = .eq := by
  intro s
  have hh : Hosted s.links s.heap := Session.hosted classCopied
  have hk : KeepsTemplates s.links s.heap := hh.keepsTemplates
  let f : Callable := ⟨"größe\n\"1\"", ["x", "", "x"], true, some (.integer 1),
    .compiled [114, 117, 110] (some 0)⟩
  have hf : s.heap.callableOf? 7 = some f := by decide +kernel
  obtain ⟨t, a, k, ht, hrun, -, hmade, -, hlevel, -⟩ :=
    hk.remade 7 f [114, 117, 110] (some 0) (by decide +kernel) hf rfl
  have hclass : s.heap.template? 7 = some classTemplate := by decide +kernel
  obtain rfl : t = classTemplate := Option.some.inj (ht.symm.trans hclass)
  exact ⟨hh, hk.written classTemplate, f, a, k, hf, rfl, hclass, hrun, hmade, hlevel⟩

end Heap

end ScriptCore
