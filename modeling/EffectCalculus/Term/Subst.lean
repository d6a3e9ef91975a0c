import EffectCalculus.Error

/-!
# Plain substitution

Replacing the free occurrences of a name. Binders are not renamed, so a binder may capture a free
variable of the replacement. Positions stay as they are, and a binder of the name itself is returned
untouched.

* `Term.subst`: direct.
* `Term.substReader`: a function of the name and the replacement, made in one walk over the part of
  the tree that lies under no binder; what lies under a binder is walked on each use.

Each reports the first atom that it reaches.
-/

namespace EffectCalculus.Term

/-! ## Direct substitution -/

def subst (x : String) (r : Term) : Term → Except EvalError Term
  | .var pos y => .ok (if y = x then r else .var pos y)
  | .abs pos y b =>
    if y = x then .ok (.abs pos y b)
    else do
      let b ← subst x r b
      return .abs pos y b
  | .app pos f a => do
    let f ← subst x r f
    let a ← subst x r a
    return .app pos f a
  | .num pos n => .ok (.num pos n)
  | .add pos l e => do
    let l ← subst x r l
    let e ← subst x r e
    return .add pos l e
  | .atom a => .error (.notExpression a)

/-! ## Substitution as a reader -/

/-- A substitution still waiting for the name and its replacement. -/
abbrev Substitution := String × Term → Except EvalError Term

def substReader : Term → Except EvalError Substitution
  | .var pos y => .ok fun (x, r) => .ok (if x = y then r else .var pos y)
  | .abs pos y b => .ok fun (x, r) =>
    if x = y then .ok (.abs pos y b)
    else do
      let inner ← b.substReader
      let b ← inner (x, r)
      return .abs pos y b
  | .app pos f a => do
    let f ← f.substReader
    let a ← a.substReader
    return fun env => do
      let f ← f env
      let a ← a env
      return .app pos f a
  | .num pos n => .ok fun _ => .ok (.num pos n)
  | .add pos l r => do
    let l ← l.substReader
    let r ← r.substReader
    return fun env => do
      let l ← l env
      let r ← r env
      return .add pos l r
  | .atom a => .error (.notExpression a)

/-- Makes the reader for `e` and uses it once. -/
def substViaReader (x : String) (r e : Term) : Except EvalError Term := do
  let reader ← e.substReader
  reader (x, r)

end EffectCalculus.Term
