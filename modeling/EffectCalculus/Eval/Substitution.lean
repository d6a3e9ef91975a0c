import EffectCalculus.Eval.Optional
import EffectCalculus.Term.Subst

/-!
# Evaluation by substitution

Call-by-value evaluation of a term to an abstraction or a number. The result is absent when a
variable is evaluated, when something other than an abstraction is applied, and when a sum has a
summand that is no number. The function part is evaluated first; if it is no abstraction, the
argument is not looked at.

The evaluator is written twice: `bySubstitution` chains optional results, and `byBlock` drives a
block for each term. Only the first notes variables. The `Nat` argument of both bounds the depth of
evaluation.
-/

namespace EffectCalculus

/-- The sum of two number terms, at the position of the addition. -/
def Term.sum? (pos : Pos) : Term → Term → Option Term
  | .num _ m, .num _ n => some (.num pos (m + n))
  | _, _ => none

/-! ## Chained -/

def bySubstitution (w : Watch) : Nat → Term → Eval (Option Term)
  | 0, _ => Run.unfinished
  | n + 1, e => do
    w.visit .substitution e
    match e with
    | .var _ x => do
      w.note (.freeVariable x)
      return none
    | .abs .. | .num .. => return some e
    | .app _ f a =>
      (bySubstitution w n f).andThen fun callee =>
        match callee with
        | .abs _ x b =>
          (bySubstitution w n a).andThen fun v => do
            let e ← Run.ofExcept (Term.subst x v b)
            bySubstitution w n e
        | _ => return none
    | .add pos l r =>
      (bySubstitution w n l).andThen fun u =>
        (bySubstitution w n r).andThen fun v => return Term.sum? pos u v
    | .atom a => Run.fault (.notExpression a)

/-! ## In blocks -/

/-- The block for one term, given how to evaluate terms inside it. -/
def Term.block (eval : Term → Eval (Option Term)) : Term → Block Term
  | .var .. => Block.await (return none)
  | .abs pos x b => return .abs pos x b
  | .num pos n => return .num pos n
  | .app _ f a => do
    let callee ← Block.await (eval f)
    match callee with
    | .abs _ x b => do
      let v ← Block.await (eval a)
      let e ← Block.ofExcept (Term.subst x v b)
      Block.await (eval e)
    | _ => Block.await (return none)
  | .add pos l r => do
    let u ← Block.await (eval l)
    let v ← Block.await (eval r)
    Block.await (return Term.sum? pos u v)
  | .atom a => .raise (.notExpression a)

def byBlock (w : Watch) : Nat → Term → Eval (Option Term)
  | 0, _ => Run.unfinished
  | n + 1, e => do
    w.visit .block e
    (e.block (byBlock w n)).drive

end EffectCalculus
