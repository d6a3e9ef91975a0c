import EffectCalculus.Effect.Combinators
import EffectCalculus.Error.Message
import EffectCalculus.Term.Datum
import EffectCalculus.Term.Subst

/-!
# Plain substitution as a reader program

The substitution reader as a program of the reader effect. Its environment is the pair of the name
and the replacement. The programs of the parts of a node are made with it, except for the body of an
abstraction: its program is made each time that the environment sends the reader there.

* `SubstReader.program`: makes the reader for a term.
* `SubstReader.environment`: a name and its replacement.
-/

namespace EffectCalculus.SubstReader

/-- The functions that a reader is put together with. -/
inductive Callback
  /-- The replacement if the name is that of the variable, and else the variable itself. -/
  | choose (pos : Pos) (y : String)
  /-- Leaves a binder of the name alone and goes below any other one. -/
  | under (pos : Pos) (y : String) (body : Term)
  | abs (pos : Pos) (y : String)
  | app (pos : Pos)
  | add (pos : Pos)

abbrev Item := Datum Callback Empty

abbrev Go := Performer Unit Callback Empty

/-- A name and its replacement. -/
def environment (x : String) (r : Term) : Item := .tuple [.text x, r.datum]

/-- The reader for a term. -/
def program (go : Go) : Term → Act Unit Item
  | .var pos y => go (.map (.comp (.reader .ask)) (.host (.choose pos y)))
  | .abs pos y b => go (.bind (.comp (.reader .ask)) (.host (.under pos y b)))
  | .app pos f a => do
    let f ← program go f
    let a ← program go a
    fmap2 go (.host (.app pos)) f a
  | .num pos n => unitOf .reader (Term.num pos n).datum
  | .add pos l r => do
    let l ← program go l
    let r ← program go r
    fmap2 go (.host (.add pos)) l r
  | .atom a => Run.fault (.raised (EvalError.notExpression a).message)

def Callback.call (go : Go) : Callback → List Item → Act Unit Item
  | .choose pos y, [env] => do
    let x ← Run.ofExcept (env.item 0)
    if x.same (.text y) then Run.ofExcept (env.item 1) else return (Term.var pos y).datum
  | .under pos y b, [env] => do
    let x ← Run.ofExcept (env.item 0)
    if x.same (.text y) then unitOf .reader (Term.abs pos y b).datum
    else do
      let inner ← program go b
      fmap go (.host (.abs pos y)) inner
  | .abs pos y, [b] => return .tuple [.text "Abs", pos.datum, .text y, b]
  | .app pos, [f, a] => return .tuple [.text "App", pos.datum, f, a]
  | .add pos, [l, r] => return .tuple [.text "Add", pos.datum, l, r]
  | _, _ => Run.fault (.unsupported "call" "function")

/-- There are no blocks. -/
def host : Host Unit Callback Empty where
  call := Callback.call
  start _ _ := Run.fault (.unsupported "start" "function")
  resume _ p := nomatch p

/-- Makes the reader for `e` and uses it once. -/
def viaProgram (go : Go) (x : String) (r e : Term) : Act Unit Item := do
  let reader ← program go e
  let c ← reader.asComp "run"
  c.run go (some (environment x r))

end EffectCalculus.SubstReader
