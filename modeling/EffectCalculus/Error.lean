import EffectCalculus.Value.Basic

/-!
# Evaluation errors

What can go wrong with a term or a value, each kind with what it concerns. The wording is in
`EffectCalculus.Error.Message`.

* `EvalError.pos?`: the three failures of evaluation proper carry the position of the node that
  failed; the two reports of misplaced data carry none.
-/

namespace EffectCalculus

inductive EvalError
  /-- An operation on terms reached plain data. -/
  | notExpression (a : Atom)
  /-- A value was to be shown and plain data was found. -/
  | notValue (a : Atom)
  /-- A variable has no binding. -/
  | unbound (name : String) (pos : Pos)
  /-- Something other than a closure was applied. -/
  | notClosure (value : Value) (pos : Pos)
  /-- Two values were added of which not both are numbers. -/
  | notNumbers (left right : Value) (pos : Pos)

namespace EvalError

def pos? : EvalError → Option Pos
  | .notExpression _ | .notValue _ => none
  | .unbound _ pos | .notClosure _ pos | .notNumbers _ _ pos => some pos

end EvalError

end EffectCalculus
