import ScriptCore.Proofs.Comparison.Equality
import ScriptCore.Proofs.Comparison.Orders

/-!
# The order of callables

What callables are told apart by is their **identity** (`Callable.identity`): the name, the constructor
mark and the identity of the body, which is a native function, a closure, a script in a scope or a
string of bytes. Parameters, a bound `this`, the state of a closure and the scope of bytecode do not
count.

Callables are compared by their identities and by where these stand (`Callable.compare_eq`). Wherever
that is, identities are in order and level with themselves alone (`CallableIdentity.ordersOn_compareAt`,
`CallableIdentity.compareAt_eq_eq_iff`). So callables are in order, and level if their identities are
the same (`Callable.inOrder_compare`).
-/

namespace ScriptCore

open Comparison (OrdersOn)

/-- What the body of a callable is told apart by. -/
inductive BodyIdentity where
  | native (code : NativeCode)
  | closure (identity : Nat)
  | interpreted (script : Nat) (scope : NodeId)
  | compiled (bytecode : List UInt8)
deriving DecidableEq

/-- What a callable is told apart by. -/
structure CallableIdentity where
  name : String
  isConstructor : Bool
  body : BodyIdentity
deriving DecidableEq

variable {κ : Type} [LinearOrder κ]

namespace CallKind

theorem eq_of_rank_eq {k l : CallKind} (he : k.rank = l.rank) : k = l := by
  cases k <;> cases l <;> simp_all [rank]

end CallKind

namespace BodyIdentity

def kind : BodyIdentity → CallKind
  | .native _ => .native
  | .closure _ => .closure
  | .interpreted .. => .interpreted
  | .compiled _ => .compiled

def compareAt (p : Places κ) : BodyIdentity → BodyIdentity → Ordering
  | .native a, .native b => Ord.compare (p.native a) (p.native b)
  | .closure a, .closure b => Ord.compare (p.closure a) (p.closure b)
  | .interpreted a s, .interpreted b t =>
    (Ord.compare (p.script a) (p.script b)).then (Ord.compare (p.scope s) (p.scope t))
  | .compiled a, .compiled b => compareLists Ord.compare a b
  | _, _ => .eq

/-- **Identities of one kind** are in order. -/
theorem ordersOn_compareAt (p : Places κ) (kind : CallKind) :
    OrdersOn (compareAt p) fun i => i.kind = kind := by
  have hplace {α : Type} (place : α → κ) :
      OrdersOn (fun a b => Ord.compare (place a) (place b)) fun _ => True :=
    OrdersOn.of_transOrd.on place
  cases kind with
  | native =>
    refine ((hplace p.native).of_keys (fun i code => i = .native code)
      (by rintro _ _ x y rfl rfl _ _; rfl)).mono fun i hi => ?_
    cases i <;> cases hi
    exact ⟨_, rfl, trivial⟩
  | closure =>
    refine ((hplace p.closure).of_keys (fun i identity => i = .closure identity)
      (by rintro _ _ x y rfl rfl _ _; rfl)).mono fun i hi => ?_
    cases i <;> cases hi
    exact ⟨_, rfl, trivial⟩
  | interpreted =>
    have hparts := (hplace fun part : Nat × NodeId => p.script part.1).lex fun _ _ =>
      (hplace fun part : Nat × NodeId => p.scope part.2).mono fun _ _ => trivial
    refine (hparts.of_keys (fun i part => i = .interpreted part.1 part.2)
      (by rintro _ _ x y rfl rfl _ _; rfl)).mono fun i hi => ?_
    cases i <;> cases hi
    exact ⟨(_, _), rfl, trivial⟩
  | compiled =>
    have hbytes : OrdersOn (Ord.compare : UInt8 → UInt8 → Ordering) fun _ => True := .of_transOrd
    refine (hbytes.lists.of_keys (fun i bytecode => i = .compiled bytecode)
      (by rintro _ _ x y rfl rfl _ _; rfl)).mono fun i hi => ?_
    cases i <;> cases hi
    exact ⟨_, rfl, fun _ _ => trivial⟩

theorem compareLists_bytes_eq_iff {a b : List UInt8} :
    compareLists Ord.compare a b = .eq ↔ a = b := by
  rw [compareLists_eq_eq_iff]
  refine ⟨fun ⟨hlength, hbytes⟩ => ?_, fun he => ?_⟩
  · refine List.ext_getElem hlength fun n ha hb => ?_
    have hmem : (a[n], b[n]) ∈ a.zip b :=
      List.mem_iff_getElem.mpr ⟨n, by simpa using ⟨ha, hb⟩, by simp⟩
    exact Std.LawfulEqOrd.compare_eq_iff_eq.mp (hbytes _ hmem)
  · subst he
    refine ⟨rfl, fun q hq => Std.LawfulEqOrd.compare_eq_iff_eq.mpr ?_⟩
    obtain ⟨n, hn, rfl⟩ := List.mem_iff_getElem.mp hq
    simp

/-- **Identities of one kind are level if they are the same**, and only then. -/
theorem compareAt_eq_eq_iff (p : Places κ) {i j : BodyIdentity} (hkind : i.kind = j.kind) :
    i.compareAt p j = .eq ↔ i = j := by
  cases i with
  | native a =>
    cases j <;> cases hkind
    simp [compareAt, p.native_injective.eq_iff]
  | closure a =>
    cases j <;> cases hkind
    simp [compareAt, p.closure_injective.eq_iff]
  | interpreted a s =>
    cases j <;> cases hkind
    simp [compareAt, Ordering.then_eq_eq, p.script_injective.eq_iff, p.scope_injective.eq_iff]
  | compiled a =>
    cases j <;> cases hkind
    simp [compareAt, compareLists_bytes_eq_iff]

end BodyIdentity

namespace CallableIdentity

def compareAt (p : Places κ) (i j : CallableIdentity) : Ordering :=
  (Ord.compare i.body.kind.rank j.body.kind.rank).then <|
    (Ord.compare i.name j.name).then <|
      (Ord.compare i.isConstructor.toNat j.isConstructor.toNat).then (i.body.compareAt p j.body)

/-- **Identities are in order**: by kind, name and constructor mark, and those that agree in all three
by their bodies. -/
theorem ordersOn_compareAt (p : Places κ) : OrdersOn (compareAt p) fun _ => True := by
  have hkey {α : Type} [Ord α] [Std.TransOrd α] (key : CallableIdentity → α)
      (P : CallableIdentity → Prop) :
      OrdersOn (fun i j => Ord.compare (key i) (key j)) P :=
    (OrdersOn.of_transOrd.on key).mono fun _ _ => trivial
  refine (hkey (fun i => i.body.kind.rank) _).lex fun i _ =>
    (hkey CallableIdentity.name _).lex fun _ _ =>
      (hkey (fun i => i.isConstructor.toNat) _).lex fun _ _ => ?_
  refine ((BodyIdentity.ordersOn_compareAt p i.body.kind).on CallableIdentity.body).mono
    fun j hj => ?_
  exact (CallKind.eq_of_rank_eq (compare_eq_iff_eq.mp hj.1.1.2)).symm

/-- **No two identities are level.** -/
theorem compareAt_eq_eq_iff (p : Places κ) {i j : CallableIdentity} :
    i.compareAt p j = .eq ↔ i = j := by
  refine ⟨fun he => ?_, fun he => he ▸ (ordersOn_compareAt p).refl trivial⟩
  simp only [compareAt, Ordering.then_eq_eq, compare_eq_iff_eq] at he
  obtain ⟨hkind, hname, hmark, hbody⟩ := he
  have hbody := (BodyIdentity.compareAt_eq_eq_iff p (CallKind.eq_of_rank_eq hkind)).mp hbody
  have hmark : i.isConstructor = j.isConstructor := by
    cases hi : i.isConstructor <;> cases hj : j.isConstructor <;> simp_all
  cases i
  cases j
  simp_all

end CallableIdentity

namespace Body

def identity : Body → BodyIdentity
  | .native code => .native code
  | .closure identity _ => .closure identity
  | .interpreted script scope => .interpreted script.identity scope
  | .compiled bytecode _ => .compiled bytecode

@[simp] theorem kind_identity (b : Body) : b.identity.kind = b.kind := by
  cases b <;> rfl

theorem compare_eq (p : Places κ) (a b : Body) :
    a.compare p b = a.identity.compareAt p b.identity := by
  cases a <;> cases b <;> rfl

end Body

namespace Callable

def identity (f : Callable) : CallableIdentity := ⟨f.name, f.isConstructor, f.body.identity⟩

/-- **What is asked of an order of callables**: it is a total preorder, and level are those of one kind,
name and constructor mark with the same native function, closure, script and scope, or bytecode. -/
structure InOrder (cmp : Callable → Callable → Ordering) : Prop where
  self : ∀ f, cmp f f = .eq
  swap : ∀ f g, cmp g f = (cmp f g).swap
  trans : ∀ f g e, cmp f g ≠ .gt → cmp g e ≠ .gt → cmp f e ≠ .gt
  level : ∀ f g, cmp f g = .eq ↔ f.kind = g.kind ∧ f.name = g.name ∧
    f.isConstructor = g.isConstructor ∧ f.body.identity = g.body.identity

variable {f g : Callable}

theorem compare_eq (p : Places κ) (f g : Callable) :
    f.compare p g = f.identity.compareAt p g.identity := by
  rw [CallableIdentity.compareAt, Callable.compare, Body.compare_eq]
  simp only [identity, Body.kind_identity, kind]

theorem identity_eq_iff : f.identity = g.identity ↔ f.name = g.name ∧
    f.isConstructor = g.isConstructor ∧ f.body.identity = g.body.identity := by
  rw [identity, identity, CallableIdentity.mk.injEq]

theorem compare_eq_eq_iff (p : Places κ) : f.compare p g = .eq ↔ f.identity = g.identity := by
  rw [compare_eq, CallableIdentity.compareAt_eq_eq_iff]

theorem ordersOn_compareAt (p : Places κ) : OrdersOn (Callable.compare p) fun _ => True := by
  rw [show Callable.compare p = fun f g => f.identity.compareAt p g.identity from
    funext fun f => funext (compare_eq p f)]
  exact (CallableIdentity.ordersOn_compareAt p).on identity

/-- **Callables are in order**, wherever the things stand that they are told apart by. -/
theorem inOrder_compare (p : Places κ) : InOrder (Callable.compare p) where
  self _ := (ordersOn_compareAt p).refl trivial
  swap _ _ := (ordersOn_compareAt p).swap trivial trivial
  trans _ _ _ := (ordersOn_compareAt p).trans trivial trivial trivial
  level f g := by
    rw [compare_eq_eq_iff, identity_eq_iff]
    refine ⟨fun he => ⟨?_, he⟩, And.right⟩
    rw [kind, kind, ← Body.kind_identity, ← Body.kind_identity, he.2.2]

/-- Level wherever things stand. -/
def Level (f g : Callable) : Prop :=
  ∀ (κ : Type) [LinearOrder κ] (p : Places κ), f.compare p g = .eq

theorem level_iff : f.Level g ↔ f.identity = g.identity :=
  ⟨fun hl => (compare_eq_eq_iff _).mp (hl Nat .numbers), fun he _ _ p => (compare_eq_eq_iff p).mpr he⟩

theorem ordersOn_compare (p : Places Nat) : OrdersOn (Callable.compare p) fun _ => True :=
  ordersOn_compareAt p

theorem compare_eq_eq_congr (p q : Places Nat) : f.compare p g = .eq ↔ f.compare q g = .eq :=
  (compare_eq_eq_iff p).trans (compare_eq_eq_iff q).symm

end Callable

end ScriptCore
