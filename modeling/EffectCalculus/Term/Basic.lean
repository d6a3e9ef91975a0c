/-!
# Terms

Terms of a lambda calculus with integer literals and addition. Every node carries the position it
has in the source, for diagnostics; two terms are the same term when they agree up to positions.

A tree may also hold plain data where a term should stand. Such a leaf is an `Atom`: nothing looks
at it before an operation reaches it, and the operation then reports it.

* `Term`, `Term.WellFormed`: trees, and those without atoms.
* `Term.same`: equality up to positions.
* `Term.height`: the number of nodes above the deepest leaf.
-/

namespace EffectCalculus

/-- A place in the source. -/
structure Pos where
  line : Int
  column : Int
deriving DecidableEq, Repr

/-- The position of a node that comes from no source. -/
def Pos.none : Pos := ⟨0, 0⟩

/-- Plain data standing where a term or a value should stand. -/
inductive Atom
  | null
  | bool (b : Bool)
  | int (n : Int)
  | text (s : String)
deriving DecidableEq, Repr

namespace Atom

/-- The name of the kind of plain data. -/
def kind : Atom → String
  | .null => "NoneType"
  | .bool _ => "bool"
  | .int _ => "int"
  | .text _ => "str"

/-- A truth value counts as the number 0 or 1. -/
def number? : Atom → Option Int
  | .int n => some n
  | .bool b => some (if b then 1 else 0)
  | _ => .none

/-- Equality of plain data; numbers and truth values are compared as numbers. -/
def same (a b : Atom) : Bool :=
  match a.number?, b.number? with
  | some m, some n => m = n
  | _, _ => a = b

theorem same_refl (a : Atom) : a.same a = true := by
  cases a <;> simp [same, number?]

end Atom

inductive Term
  | var (pos : Pos) (name : String)
  | app (pos : Pos) (fn arg : Term)
  | abs (pos : Pos) (param : String) (body : Term)
  | num (pos : Pos) (value : Int)
  | add (pos : Pos) (left right : Term)
  | atom (a : Atom)
deriving DecidableEq, Repr

namespace Term

/-- No atom stands in the tree. -/
def WellFormed : Term → Prop
  | .var _ _ => True
  | .app _ f a => f.WellFormed ∧ a.WellFormed
  | .abs _ _ b => b.WellFormed
  | .num _ _ => True
  | .add _ l r => l.WellFormed ∧ r.WellFormed
  | .atom _ => False

instance instDecidableWellFormed : (e : Term) → Decidable e.WellFormed
  | .var _ _ => .isTrue trivial
  | .app _ f a =>
    have := instDecidableWellFormed f
    have := instDecidableWellFormed a
    inferInstanceAs (Decidable (_ ∧ _))
  | .abs _ _ b => instDecidableWellFormed b
  | .num _ _ => .isTrue trivial
  | .add _ l r =>
    have := instDecidableWellFormed l
    have := instDecidableWellFormed r
    inferInstanceAs (Decidable (_ ∧ _))
  | .atom _ => .isFalse id

/-- Equality of terms, whatever their positions. -/
def same : Term → Term → Bool
  | .var _ x, .var _ y => x = y
  | .app _ f a, .app _ f' a' => f.same f' && a.same a'
  | .abs _ x b, .abs _ y b' => x = y && b.same b'
  | .num _ m, .num _ n => m = n
  | .add _ l r, .add _ l' r' => l.same l' && r.same r'
  | .atom a, .atom b => a.same b
  | _, _ => false

theorem same_refl (e : Term) : e.same e = true := by
  induction e with
  | var | num => simp [same]
  | app _ f a ihf iha => simp [same, ihf, iha]
  | abs _ x b ih => simp [same, ih]
  | add _ l r ihl ihr => simp [same, ihl, ihr]
  | atom a => exact a.same_refl

def height : Term → Nat
  | .var _ _ | .num _ _ | .atom _ => 0
  | .app _ f a => max f.height a.height + 1
  | .abs _ _ b => b.height + 1
  | .add _ l r => max l.height r.height + 1

end Term

end EffectCalculus
