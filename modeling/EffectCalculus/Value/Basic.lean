import EffectCalculus.Bindings
import EffectCalculus.Term.Basic

/-!
# Values and environments

A value is a number, a closure, or plain data that an environment was given in place of a value. An
environment binds names to values.

* `Value`, `Env`: what evaluation in an environment computes with.
* `Value.same`: equality up to positions in closure bodies and up to the order of bindings.
-/

namespace EffectCalculus

inductive Value
  | num (n : Int)
  | closure (env : List (String × Value)) (param : String) (body : Term)
  | atom (a : Atom)

abbrev Env := Bindings Value

namespace Value

mutual
/-- Equality of values. Bodies are compared up to positions, environments as finite maps. -/
def same : Value → Value → Bool
  | .num m, .num n => m = n
  | .closure env x b, .closure env' y b' =>
    env.length = env'.length && sameIn env env' && x = y && b.same b'
  | .atom a, .atom b => a.same b
  | _, _ => false

/-- Every binding of the first environment has its equal in the second. -/
def sameIn : List (String × Value) → Env → Bool
  | [], _ => true
  | (x, v) :: rest, env =>
    (match env.find? x with
      | some w => v.same w
      | none => false) && sameIn rest env
end

/-- No atom stands in the value, nor in a body or an environment inside it. -/
inductive WellFormed : Value → Prop
  | num (n : Int) : WellFormed (.num n)
  | closure {env : Env} {x : String} {b : Term} (bindings : ∀ p ∈ env, WellFormed p.2)
      (body : b.WellFormed) : WellFormed (.closure env x b)

end Value

end EffectCalculus
