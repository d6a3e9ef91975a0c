import EffectCalculus.Term.Free
import EffectCalculus.Term.Subst

/-!
# Capture-avoiding substitution

Like plain substitution, but binders that would capture are renamed. A binder `y` is renamed only if
it is free in the replacement and the name is free in its body, and then to `y` with the fewest
primes, at least one, that make it free in neither.

* `Term.substAvoiding`: the substitution.
* `Term.freshName`: the new name.
* `Term.taken?`: whether a binder would capture, and what its new name has to avoid.
-/

namespace EffectCalculus.Term

/-- `name` with the fewest primes added that make it none of `taken`, if `tries` are enough. -/
def primed (taken : List String) : (tries : Nat) → (name : String) → String
  | 0, name => name
  | tries + 1, name => if name ∈ taken then primed taken tries (name ++ "'") else name

/-- A name for a binder `y` that is none of `taken`. One of the first `taken.length + 1` candidates
is free, so the tries always suffice. -/
def freshName (taken : List String) (y : String) : String :=
  primed taken taken.length (y ++ "'")

/-- The names that a new name for the binder `y` of `b` has to avoid, if replacing `x` by `r` under
that binder would capture a variable of `r`. -/
def taken? (x : String) (r : Term) (y : String) (b : Term) :
    Except EvalError (Option (List String)) := do
  let inReplacement ← r.free
  if y ∈ inReplacement then
    let inBody ← b.free
    return if x ∈ inBody then some (inReplacement ++ inBody) else none
  else
    return none

/-- Capture-avoiding substitution in a tree of at most the given height. Renaming a binder keeps the
height of its body, so the renamed body is again within reach. -/
def substWithin : (height : Nat) → String → Term → Term → Except EvalError Term
  | height + 1, x, r, .abs pos y b =>
    if y = x then .ok (.abs pos y b)
    else do
      match ← taken? x r y b with
      | some taken =>
        let z := freshName taken y
        let b ← substWithin height y (.var pos z) b
        let b ← substWithin height x r b
        return .abs pos z b
      | none =>
        let b ← substWithin height x r b
        return .abs pos y b
  | height + 1, x, r, .app pos f a => do
    let f ← substWithin height x r f
    let a ← substWithin height x r a
    return .app pos f a
  | height + 1, x, r, .add pos l e => do
    let l ← substWithin height x r l
    let e ← substWithin height x r e
    return .add pos l e
  | _, x, r, e => subst x r e

def substAvoiding (x : String) (r e : Term) : Except EvalError Term :=
  substWithin e.height x r e

end EffectCalculus.Term
