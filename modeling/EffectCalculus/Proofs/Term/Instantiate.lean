import EffectCalculus.Proofs.Term.Nameless
import EffectCalculus.Run

/-!
# Evaluation of nameless forms

Entering an abstraction puts the argument in the place of its index. On nameless forms this is all
there is to binding, so they can be evaluated by themselves, without an environment.

* `Nameless.instantiate`: the outermost index replaced; `instantiate_shift`: it undoes the room made
  for a binder;
* `read_instantiate`: **entering a binder** is reading its body with the name standing for the
  argument;
* `Nameless.eval`: call-by-value evaluation, with the failures told apart by `Failure`.
-/

namespace EffectCalculus

open Function (update update_self update_of_ne)

namespace Nameless

/-- The binder outside the `c` innermost ones is entered: its index becomes `s`, which has no index
that points out of it, and those beyond come one nearer. -/
def instantiate (t : Nameless) (c : Nat) (s : Nameless) : Nameless :=
  match t with
  | .bound i => if i < c then .bound i else if i = c then s else .bound (i - 1)
  | .free y => .free y
  | .app f a => .app (f.instantiate c s) (a.instantiate c s)
  | .abs b => .abs (b.instantiate (c + 1) s)
  | .num n => .num n
  | .add l r => .add (l.instantiate c s) (r.instantiate c s)
  | .atom a => .atom a

theorem instantiate_shift (c : Nat) (s t : Nameless) : (t.shift c).instantiate c s = t := by
  induction t generalizing c with
  | bound i =>
    by_cases hi : i < c
    · simp [shift, instantiate, hi]
    · have hne : i + 1 ≠ c := by omega
      have hge : ¬ i + 1 < c := by omega
      simp [shift, instantiate, hi, hne, hge]
  | free | num | atom => rfl
  | app f a ihf iha => simp only [shift, instantiate, ihf, iha]
  | abs b ih => simp only [shift, instantiate, ih]
  | add l r ihl ihr => simp only [shift, instantiate, ihl, ihr]

/-- Room for an inner binder can be made before or after an outer one is entered. -/
theorem shift_instantiate {s : Nameless} (hs : ∀ c, s.shift c = s) {i c : Nat} (hic : i ≤ c)
    (t : Nameless) : (t.shift i).instantiate (c + 1) s = (t.instantiate c s).shift i := by
  induction t generalizing i c with
  | bound j =>
    by_cases hji : j < i
    · have hjc : j < c := by omega
      have hjc' : j < c + 1 := by omega
      simp [shift, instantiate, hji, hjc, hjc']
    · rcases Nat.lt_trichotomy j c with hjc | rfl | hcj
      · simp [shift, instantiate, hji, hjc]
      · simp [shift, instantiate, hji, hs]
      · have hne : j ≠ c := by omega
        have hnc : ¬ j < c := by omega
        have hni : ¬ j - 1 < i := by omega
        have heq : j - 1 + 1 = j := by omega
        simp [shift, instantiate, hji, hne, hnc, hni, heq]
  | free | num | atom => rfl
  | app f a ihf iha => simp only [shift, instantiate, ihf hic, iha hic]
  | abs b ih => simp only [shift, instantiate, ih (Nat.succ_le_succ hic)]
  | add l r ihl ihr => simp only [shift, instantiate, ihl hic, ihr hic]

end Nameless

namespace Term

theorem read_instantiate_within {s : Nameless} (hs : ∀ c, s.shift c = s) (c : Nat) (φ : Reading)
    (e : Term) : e.read (fun z => (φ z).instantiate c s) = (e.read φ).instantiate c s := by
  induction e generalizing c φ with
  | var | num | atom => rfl
  | app pos f a ihf iha => simp only [read, Nameless.instantiate, ihf, iha]
  | add pos l r ihl ihr => simp only [read, Nameless.instantiate, ihl, ihr]
  | abs pos y b ih =>
    have hu : Reading.under y (fun z => (φ z).instantiate c s) =
        fun z => (φ.under y z).instantiate (c + 1) s := by
      funext z
      by_cases hz : z = y
      · simp [Reading.under, hz, Nameless.instantiate]
      · simp [Reading.under, hz, Nameless.shift_instantiate hs (Nat.zero_le c)]
    simp only [read, Nameless.instantiate, hu, ih]

/-- Entering a binder of `x` is reading its body with `x` standing for the argument. -/
theorem read_instantiate {s : Nameless} (hs : ∀ c, s.shift c = s) (x : String) (φ : Reading)
    (e : Term) : (e.read (φ.under x)).instantiate 0 s = e.read (update φ x s) := by
  rw [← read_instantiate_within hs]
  congr 1
  funext z
  by_cases hz : z = x
  · simp [Reading.under, hz, Nameless.instantiate]
  · simp [Reading.under, hz, Nameless.instantiate_shift]

end Term

/-! ## Evaluation -/

/-- How an evaluation can fail, without its place and without the values that it has met. -/
inductive Failure
  | unbound (name : String)
  | notClosure
  | notNumbers
  /-- There is no term to evaluate. -/
  | misplaced
deriving DecidableEq, Repr

/-- Goes on with a result. -/
def Outcome.andThen {ε α β : Type} : Outcome ε α → (α → Outcome ε β) → Outcome ε β
  | .done a, k => k a
  | .fault e, _ => .fault e
  | .unfinished, _ => .unfinished

namespace Nameless

/-- Call-by-value evaluation. The callee is checked before the argument is evaluated. -/
def eval : Nat → Nameless → Outcome Failure Nameless
  | 0, _ => .unfinished
  | _ + 1, .free x => .fault (.unbound x)
  | _ + 1, .abs b => .done (.abs b)
  | _ + 1, .num k => .done (.num k)
  | n + 1, .app f a =>
    (eval n f).andThen fun
      | .abs b => (eval n a).andThen fun s => eval n (b.instantiate 0 s)
      | _ => .fault .notClosure
  | n + 1, .add l r =>
    (eval n l).andThen fun u => (eval n r).andThen fun v =>
      match u, v with
      | .num i, .num j => .done (.num (i + j))
      | _, _ => .fault .notNumbers
  | _ + 1, .bound _ | _ + 1, .atom _ => .fault .misplaced

end Nameless

end EffectCalculus
