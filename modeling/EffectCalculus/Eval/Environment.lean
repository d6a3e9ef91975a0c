import EffectCalculus.Eval.Substitution

/-!
# Evaluation in an environment

Call-by-value evaluation with closures. A closure keeps the environment in which it was made, and
its body is evaluated in that environment, extended by the parameter. The callee is checked before
the argument is evaluated.

* `inEnv`: the fatal evaluator. A failure ends the run with an error that has a position.
* `inEnv?`: the optional evaluator. A failure is noted in the log and gives no result.

The `Nat` argument of both bounds the depth of evaluation.
-/

namespace EffectCalculus

/-! ## Fatal -/

def inEnv (w : Watch) : Nat → Term → Env → Eval Value
  | 0, _, _ => Run.unfinished
  | n + 1, e, env => do
    w.visit .environment e
    match e with
    | .var pos x =>
      match env.find? x with
      | some v => return v
      | none => Run.fault (.unbound x pos)
    | .abs _ x b => return .closure env x b
    | .app pos f a => do
      let callee ← inEnv w n f env
      match callee with
      | .closure inner x b => do
        let v ← inEnv w n a env
        inEnv w n b (Bindings.extend inner x v)
      | callee => Run.fault (.notClosure callee pos)
    | .num _ k => return .num k
    | .add pos l r => do
      let u ← inEnv w n l env
      let v ← inEnv w n r env
      match u, v with
      | .num i, .num j => return .num (i + j)
      | u, v => Run.fault (.notNumbers u v pos)
    | .atom a => Run.fault (.notExpression a)

/-- Fatal evaluation of a whole program; its value is noted at the end. -/
def evaluate (w : Watch) (bound : Nat) (e : Term) (env : Env) : Eval Value := do
  let v ← inEnv w bound e env
  if w.verbose then w.noteWorded (.result v)
  return v

/-! ## Optional -/

def inEnv? (w : Watch) : Nat → Term → Env → Eval (Option Value)
  | 0, _, _ => Run.unfinished
  | n + 1, e, env => do
    w.visit .optional e
    match e with
    | .var pos x =>
      match env.find? x with
      | some v => return some v
      | none => do
        w.note (.unbound x pos)
        return none
    | .abs _ x b => return some (.closure env x b)
    | .app pos f a =>
      (inEnv? w n f env).andThen fun callee =>
        match callee with
        | .closure inner x b =>
          (inEnv? w n a env).andThen fun v => inEnv? w n b (Bindings.extend inner x v)
        | callee => do
          w.note (.notClosure callee pos)
          return none
    | .num _ k => return some (.num k)
    | .add pos l r =>
      (inEnv? w n l env).andThen fun u =>
        (inEnv? w n r env).andThen fun v =>
          match u, v with
          | .num i, .num j => return some (.num (i + j))
          | _, _ => do
            w.note (.notNumbers pos)
            return none
    | .atom a => Run.fault (.notExpression a)

end EffectCalculus
