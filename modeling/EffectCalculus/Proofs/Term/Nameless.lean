import EffectCalculus.Proofs.Term.Scope
import Mathlib.Logic.Function.Basic

/-!
# Nameless forms

A term without the names of its bound variables: a bound variable is the number of binders between
it and its own, a free variable keeps its name, and positions are dropped. Two terms with one
nameless form differ in positions and bound names only.

* `Term.nameless`, `Nameless.replace`: the form, and replacement of a free name in it;
* `Term.read`: the form of a term in which each name already stands for something;
* `read_congr`: only the free names of a term matter to its reading;
* `read_under`: below a binder that a term does not mention, its reading is raised by one;
* `read_replace`: replacing in the reading of a term is replacing in what its names stand for.
-/

namespace EffectCalculus

open Function (update)

inductive Nameless
  | bound (index : Nat)
  | free (name : String)
  | app (fn arg : Nameless)
  | abs (body : Nameless)
  | num (value : Int)
  | add (left right : Nameless)
  | atom (a : Atom)
deriving DecidableEq, Repr

/-- The nameless form of a term that stands below the binders `scope`, the innermost first. -/
def Term.namelessIn (scope : List String) : Term → Nameless
  | .var _ x =>
    match scope.idxOf? x with
    | some i => .bound i
    | none => .free x
  | .app _ f a => .app (f.namelessIn scope) (a.namelessIn scope)
  | .abs _ y b => .abs (b.namelessIn (y :: scope))
  | .num _ n => .num n
  | .add _ l r => .add (l.namelessIn scope) (r.namelessIn scope)
  | .atom a => .atom a

def Term.nameless (e : Term) : Nameless := e.namelessIn []

namespace Nameless

/-- Every free occurrence of `x` replaced by `s`. The form of a whole term has no index that points
out of it, so none is changed on the way below a binder. -/
def replace (t : Nameless) (x : String) (s : Nameless) : Nameless :=
  match t with
  | .bound i => .bound i
  | .free y => if y = x then s else .free y
  | .app f a => .app (f.replace x s) (a.replace x s)
  | .abs b => .abs (b.replace x s)
  | .num n => .num n
  | .add l r => .add (l.replace x s) (r.replace x s)
  | .atom a => .atom a

/-- Room for one more binder outside the `c` innermost ones. -/
def shift (c : Nat) : Nameless → Nameless
  | .bound i => .bound (if i < c then i else i + 1)
  | .free y => .free y
  | .app f a => .app (f.shift c) (a.shift c)
  | .abs b => .abs (b.shift (c + 1))
  | .num n => .num n
  | .add l r => .add (l.shift c) (r.shift c)
  | .atom a => .atom a

theorem shift_shift {i c : Nat} (h : i ≤ c) (t : Nameless) :
    (t.shift i).shift (c + 1) = (t.shift c).shift i := by
  induction t generalizing i c with
  | bound j =>
    simp only [shift, bound.injEq]
    split <;> split <;> split <;> (try split) <;> omega
  | free | num | atom => rfl
  | app f a ihf iha => simp only [shift, ihf h, iha h]
  | abs b ih => simp only [shift, ih (Nat.succ_le_succ h)]
  | add l r ihl ihr => simp only [shift, ihl h, ihr h]

theorem replace_shift {s : Nameless} (hs : ∀ c, s.shift c = s) (x : String) (c : Nat)
    (t : Nameless) : (t.shift c).replace x s = (t.replace x s).shift c := by
  induction t generalizing c with
  | bound | num | atom => rfl
  | free y =>
    by_cases h : y = x
    · simp [shift, replace, h, hs c]
    · simp [shift, replace, h]
  | app f a ihf iha => simp only [shift, replace, ihf, iha]
  | abs b ih => simp only [shift, replace, ih]
  | add l r ihl ihr => simp only [shift, replace, ihl, ihr]

end Nameless

/-! ## Readings -/

/-- What each name stands for. -/
abbrev Reading := String → Nameless

/-- The reading below a binder of `y`. -/
def Reading.under (y : String) (φ : Reading) : Reading :=
  fun z => if z = y then .bound 0 else (φ z).shift 0

/-- The reading below the binders `scope` when every other name stands for itself. -/
def Reading.within (scope : List String) : Reading := fun x =>
  match scope.idxOf? x with
  | some i => .bound i
  | none => .free x

theorem Reading.within_cons (y : String) (scope : List String) :
    Reading.within (y :: scope) = (Reading.within scope).under y := by
  funext z
  by_cases h : z = y
  · simp [within, under, List.idxOf?_cons, h]
  · cases hz : scope.idxOf? z <;>
      simp [within, under, List.idxOf?_cons, h, Ne.symm h, hz, Nameless.shift]

namespace Term

/-- The nameless form of a term whose free names stand for what `φ` says. -/
def read (φ : Reading) : Term → Nameless
  | .var _ x => φ x
  | .app _ f a => .app (f.read φ) (a.read φ)
  | .abs _ y b => .abs (b.read (φ.under y))
  | .num _ n => .num n
  | .add _ l r => .add (l.read φ) (r.read φ)
  | .atom a => .atom a

theorem namelessIn_eq_read (scope : List String) (e : Term) :
    e.namelessIn scope = e.read (Reading.within scope) := by
  induction e generalizing scope with
  | var | num | atom => rfl
  | app pos f a ihf iha => simp only [namelessIn, read, ihf, iha]
  | abs pos y b ih => simp only [namelessIn, read, ih, Reading.within_cons]
  | add pos l r ihl ihr => simp only [namelessIn, read, ihl, ihr]

theorem nameless_eq_read (e : Term) : e.nameless = e.read Nameless.free :=
  namelessIn_eq_read [] e

theorem read_congr {φ ψ : Reading} {e : Term} (he : e.WellFormed)
    (h : ∀ z, e.IsFree z → φ z = ψ z) : e.read φ = e.read ψ := by
  induction e generalizing φ ψ with
  | var pos x => exact h x (isFree_var.mpr rfl)
  | num => rfl
  | atom => exact he.elim
  | app pos f a ihf iha =>
    simp only [isFree_app he.1 he.2] at h
    simp only [read, ihf he.1 fun z hz => h z (.inl hz), iha he.2 fun z hz => h z (.inr hz)]
  | add pos l r ihl ihr =>
    simp only [isFree_add he.1 he.2] at h
    simp only [read, ihl he.1 fun z hz => h z (.inl hz), ihr he.2 fun z hz => h z (.inr hz)]
  | abs pos y b ih =>
    have hb : ∀ z, b.IsFree z → φ.under y z = ψ.under y z := by
      intro z hz
      by_cases hzy : z = y
      · simp [Reading.under, hzy]
      · simp [Reading.under, hzy, h z (isFree_abs.mpr ⟨hz, hzy⟩)]
    simp only [read, ih he hb]

theorem read_shift (c : Nat) (φ : Reading) (e : Term) :
    e.read (fun z => (φ z).shift c) = (e.read φ).shift c := by
  induction e generalizing c φ with
  | var | num | atom => rfl
  | app pos f a ihf iha => simp only [read, Nameless.shift, ihf, iha]
  | add pos l r ihl ihr => simp only [read, Nameless.shift, ihl, ihr]
  | abs pos y b ih =>
    have hu : Reading.under y (fun z => (φ z).shift c) =
        fun z => (φ.under y z).shift (c + 1) := by
      funext z
      by_cases hz : z = y
      · simp [Reading.under, hz, Nameless.shift]
      · simp [Reading.under, hz, Nameless.shift_shift (Nat.zero_le c)]
    simp only [read, Nameless.shift, hu, ih]

theorem read_under {y : String} {e : Term} (he : e.WellFormed) (hy : ¬ e.IsFree y)
    (φ : Reading) : e.read (φ.under y) = (e.read φ).shift 0 := by
  rw [← read_shift]
  refine read_congr he fun z hz => ?_
  have hzy : z ≠ y := fun h => hy (h ▸ hz)
  simp [Reading.under, hzy]

/-- No index of a whole term's form points out of it. -/
theorem nameless_shift (c : Nat) (e : Term) : e.nameless.shift c = e.nameless := by
  rw [nameless_eq_read, ← read_shift]
  rfl

theorem read_replace {s : Nameless} (hs : ∀ c, s.shift c = s) (x : String) (φ : Reading)
    (e : Term) : e.read (fun z => (φ z).replace x s) = (e.read φ).replace x s := by
  induction e generalizing φ with
  | var | num | atom => rfl
  | app pos f a ihf iha => simp only [read, Nameless.replace, ihf, iha]
  | add pos l r ihl ihr => simp only [read, Nameless.replace, ihl, ihr]
  | abs pos y b ih =>
    have hu : Reading.under y (fun z => (φ z).replace x s) =
        fun z => (φ.under y z).replace x s := by
      funext z
      by_cases hz : z = y
      · simp [Reading.under, hz, Nameless.replace]
      · simp [Reading.under, hz, Nameless.replace_shift hs]
    simp only [read, Nameless.replace, hu, ih]

/-- Replacing a free name is reading it as its replacement. -/
theorem nameless_replace (x : String) (r e : Term) :
    e.nameless.replace x r.nameless = e.read (update Nameless.free x r.nameless) := by
  have hu : (fun z => (Nameless.free z).replace x r.nameless) =
      update Nameless.free x r.nameless := by
    funext z
    by_cases hz : z = x
    · simp [Nameless.replace, hz]
    · simp [Nameless.replace, hz]
  rw [nameless_eq_read e, ← read_replace (fun c => nameless_shift c r), hu]

end Term

end EffectCalculus
