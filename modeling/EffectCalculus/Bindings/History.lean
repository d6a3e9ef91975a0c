import EffectCalculus.Bindings

/-!
# Histories of bindings

Bindings never change: extending them makes new ones and leaves the old ones there to be extended
again. In a history each step extends some of the bindings made before it, the last ones or others.
They have numbers, from 0, in the order in which they are made.

* `Bindings.Extension`, `Bindings.grow`: a step, and what there is after it;
* `Bindings.history`: all bindings of a history.
-/

namespace EffectCalculus.Bindings

variable {α : Type}

/-- One more name is bound on top of the bindings number `base`. -/
structure Extension (α : Type) where
  base : Nat
  name : String
  value : α

/-- What was made so far and one more; `none` if the step extends bindings that are not there. -/
def grow (made : List (Bindings α)) (s : Extension α) : Option (List (Bindings α)) := do
  let bs ← made[s.base]?
  return made ++ [bs.extend s.name s.value]

/-- Takes the steps one after the other. -/
def growAll (made : List (Bindings α)) (steps : List (Extension α)) :
    Option (List (Bindings α)) :=
  steps.foldlM grow made

/-- All bindings of the history that starts with the given ones. -/
def history (start : List (String × α)) (steps : List (Extension α)) :
    Option (List (Bindings α)) :=
  growAll [ofList start] steps

end EffectCalculus.Bindings
