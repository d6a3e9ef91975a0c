import EffectCalculus.Effect.Combinators
import EffectCalculus.Eval.Action
import EffectCalculus.Eval.Substitution
import EffectCalculus.Term.Datum

/-!
# Evaluation by blocks of the maybe effect

The block evaluator as an effect program. The body of the block for a term is a process: it runs to
its next `yield`, and waits there for the result of the computation that it has yielded. To evaluate
a part it makes a further block and yields what comes of it. The world of the process is the log.

* `BlockEvaluation.Stage`, `BlockEvaluation.Move`: where a body waits, and what it does when it
  goes on.
* `BlockEvaluation.host`, `BlockEvaluation.program`: the bodies, and the block for a term.
-/

namespace EffectCalculus.BlockEvaluation

/-! ## Bodies -/

/-- Where a body waits. -/
inductive Stage
  /-- For the callee. -/
  | callee (arg : Term)
  /-- For the argument of an abstraction. -/
  | argument (param : String) (body : Term)
  /-- For the left summand. -/
  | left (pos : Pos) (right : Term)
  /-- For the right summand. -/
  | right (pos : Pos) (left : Term)
  /-- For what it then returns. -/
  | last

/-- What a body does before it waits again. -/
inductive Move
  | returns (v : Term)
  | raises (err : EvalError)
  /-- Yields an optional result. -/
  | yields (v? : Option Term) (next : Stage)
  /-- Yields what comes of evaluating a term. -/
  | evaluates (e : Term) (next : Stage)

/-- The first move of the body for a term. -/
def Move.first : Term → Move
  | .var .. => .yields none .last
  | .abs pos x b => .returns (.abs pos x b)
  | .num pos n => .returns (.num pos n)
  | .app _ f a => .evaluates f (.callee a)
  | .add pos l r => .evaluates l (.left pos r)
  | .atom a => .raises (.notExpression a)

/-- The next move, once the result has come for which the body waits. -/
def Stage.move : Stage → Term → Move
  | .callee a, .abs _ x b => .evaluates a (.argument x b)
  | .callee _, _ => .yields none .last
  | .argument x b, v =>
    match Term.subst x v b with
    | .ok e => .evaluates e .last
    | .error err => .raises err
  | .left pos r, u => .evaluates r (.right pos u)
  | .right pos u, v => .yields (Term.sum? pos u v) .last
  | .last, v => .returns v

/-- A body, before it begins and while it waits. -/
inductive Body
  | opening (e : Term)
  | waiting (s : Stage)

/-! ## Blocks -/

abbrev Item := Datum Term Body

abbrev Go := Performer (List Note) Term Body

/-- An optional result as a computation of the maybe effect. -/
def computation : Option Term → Item
  | some v => .comp (.some v.datum)
  | none => .comp .nothing

/-- The block for a term. -/
def program (go : Go) (e : Term) : Act (List Note) Item := block go .maybe (.start .maybe e)

def Move.make (go : Go) : Move → Act (List Note) (Progress Term Body)
  | .returns v => return .returned v.datum
  | .raises err => Eval.action (Run.fault err)
  | .yields v? next => return .yielded (computation v?) (.waiting next)
  | .evaluates e next => do
    let c ← program go e
    return .yielded c (.waiting next)

def Body.resume (w : Watch) (go : Go) : Body → Item → Act (List Note) (Progress Term Body)
  | .opening e, _ => do
    (w.visit .block e).action
    (Move.first e).make go
  | .waiting s, v => (s.move v.asTerm).make go

/-- The bodies of the blocks for terms. There are no callbacks. -/
def host (w : Watch) : Host (List Note) Term Body where
  call _ _ _ := Run.fault (.notCallable "Exp")
  start _ e := return .opening e
  resume := Body.resume w

end EffectCalculus.BlockEvaluation
