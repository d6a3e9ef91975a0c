import EffectCalculus.Effect.Combinators
import EffectCalculus.Eval.Action
import EffectCalculus.Eval.Environment
import EffectCalculus.Value.Datum

/-!
# Evaluation by blocks of the reader effect

The fatal evaluator as an effect program. The body of the block for a term is a process that yields
readers. It asks for the environment where it needs it, and evaluates a part by a further block. The
body of a closure is evaluated by a reader that is run in an environment of its own.

* `ReaderEvaluation.Stage`, `ReaderEvaluation.Move`: where a body waits, and what it does when it
  goes on.
* `ReaderEvaluation.host`, `ReaderEvaluation.program`: the bodies, and the block for a term.
* `ReaderEvaluation.viaProgram`: makes the block for a term and runs it in an environment.
-/

namespace EffectCalculus.ReaderEvaluation

/-! ## Bodies -/

/-- Where a body waits. -/
inductive Stage
  /-- For the environment that the variable is looked up in. -/
  | name (pos : Pos) (x : String)
  /-- For the environment of a closure. -/
  | closing (param : String) (body : Term)
  /-- For the callee. -/
  | callee (pos : Pos) (arg : Term)
  /-- For the argument of a closure. -/
  | argument (inner : Env) (param : String) (body : Term)
  /-- For the left summand. -/
  | left (pos : Pos) (right : Term)
  /-- For the right summand. -/
  | right (pos : Pos) (left : Value)
  /-- For what it then returns. -/
  | last

/-- What a body does before it waits again. -/
inductive Move
  | returns (v : Value)
  | raises (err : EvalError)
  /-- Yields the reader that gives the environment. -/
  | asks (next : Stage)
  /-- Yields what evaluates a term. -/
  | evaluates (e : Term) (next : Stage)
  /-- Yields what evaluates a term in another environment. -/
  | evaluatesIn (env : Env) (e : Term) (next : Stage)

/-- A body, before it begins and while it waits. -/
inductive Body
  | opening (e : Term)
  | waiting (s : Stage)

/-- The bodies, and the functions that replace an environment by another. -/
inductive Callback
  | body (e : Term)
  | replace (env : Env)

abbrev Item := Datum Callback Body

abbrev Go := Performer (List Note) Callback Body

/-- The first move of the body for a term. -/
def Move.first : Term → Move
  | .var pos x => .asks (.name pos x)
  | .abs _ x b => .asks (.closing x b)
  | .app pos f a => .evaluates f (.callee pos a)
  | .num _ n => .returns (.num n)
  | .add pos l r => .evaluates l (.left pos r)
  | .atom a => .raises (.notExpression a)

/-- The next move, once the result has come for which the body waits. -/
def Stage.move : Stage → Item → Move
  | .name pos x, env =>
    match env.asEnv.find? x with
    | some v => .returns v
    | none => .raises (.unbound x pos)
  | .closing x b, env => .returns (.closure env.asEnv x b)
  | .callee pos a, f =>
    match f.asValue with
    | .closure inner x b => .evaluates a (.argument inner x b)
    | f => .raises (.notClosure f pos)
  | .argument inner x b, v => .evaluatesIn (Bindings.extend inner x v.asValue) b .last
  | .left pos r, u => .evaluates r (.right pos u.asValue)
  | .right pos u, v =>
    match u, v.asValue with
    | .num i, .num j => .returns (.num (i + j))
    | u, v => .raises (.notNumbers u v pos)
  | .last, v => .returns v.asValue

/-! ## Blocks -/

/-- The block for a term. -/
def program (go : Go) (e : Term) : Act (List Note) Item :=
  block go .reader (.start .reader (.body e))

def Move.make (go : Go) : Move → Act (List Note) (Progress Callback Body)
  | .returns v => return .returned v.datum
  | .raises err => Eval.action (Run.fault err)
  | .asks next => return .yielded (.comp (.reader .ask)) (.waiting next)
  | .evaluates e next => do
    let c ← program go e
    return .yielded c (.waiting next)
  | .evaluatesIn env e next => do
    let d ← program go e
    let c ← d.asComp "local"
    let c ← Run.ofExcept (c.within (.host (.replace env)))
    return .yielded (.comp c) (.waiting next)

def Body.resume (w : Watch) (go : Go) : Body → Item → Act (List Note) (Progress Callback Body)
  | .opening e, _ => do
    (w.visit .environment e).action
    (Move.first e).make go
  | .waiting s, d => (s.move d).make go

def host (w : Watch) : Host (List Note) Callback Body where
  call _ f args :=
    match f, args with
    | .replace env, [_] => return env.datum
    | _, _ => Run.fault (.unsupported "call" "function")
  start _ f :=
    match f with
    | .body e => return .opening e
    | .replace _ => Run.fault (.unsupported "start" "function")
  resume := Body.resume w

/-- Makes the block for a term and runs it in an environment. -/
def viaProgram (go : Go) (e : Term) (env : Env) : Act (List Note) Item := do
  let d ← program go e
  let c ← d.asComp "run"
  c.run go (some env.datum)

end EffectCalculus.ReaderEvaluation
