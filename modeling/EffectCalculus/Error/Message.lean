import EffectCalculus.Value.Show

/-!
# The wording of evaluation errors

A failure of evaluation proper ends with the line and the column where it arose.
-/

namespace EffectCalculus

open Text

/-- `text` with the place it is about. -/
def Pos.after (text : String) (p : Pos) : String :=
  text ++ " at " ++ decimal p.line ++ ":" ++ decimal p.column

def EvalError.message : EvalError → String
  | .notExpression a => "not an expression: " ++ a.literal
  | .notValue a => "not a value: " ++ a.literal
  | .unbound x pos =>
    pos.after ("Unbound variable: " ++ literal x
      ++ "\nHint: bind it with an enclosing Abs or pass it in the initial environment")
  | .notClosure v pos => pos.after ("Value must be a closure, got " ++ v.literal)
  | .notNumbers l r pos =>
    pos.after ("Values must be numbers, got " ++ l.literal ++ " and " ++ r.literal)

end EffectCalculus
