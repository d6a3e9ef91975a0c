import EffectCalculus.Error.Message
import EffectCalculus.Run

/-!
# Watching an evaluation

An evaluation keeps a log of notes. Two switches decide what is noted: `tracing` asks for a note at
every term that is evaluated, and `verbose` lets notes into the log at all. A note about a term or a
value is worded when it arises, even if it is then left out of the log, so that an atom inside is
reported then.

* `Watch.visit_quiet`: an evaluation that is not traced begins with nothing.
-/

namespace EffectCalculus

open Text

/-- The four evaluators. -/
inductive Evaluator
  | substitution
  | block
  | environment
  | optional
deriving DecidableEq, Repr

/-- The name of an evaluator in the log. -/
def Evaluator.label : Evaluator → String
  | .substitution => "eval_exp"
  | .block => "eval_exp_do"
  | .environment => "eval_env"
  | .optional => "eval_env_maybe"

inductive Note
  /-- The evaluator begins with a term. -/
  | visit (who : Evaluator) (e : Term)
  /-- Substitution evaluation met a variable. -/
  | freeVariable (name : String)
  /-- A variable has no binding. -/
  | unbound (name : String) (pos : Pos)
  /-- Something other than a closure is applied. -/
  | notClosure (value : Value) (pos : Pos)
  /-- Not both summands are numbers. -/
  | notNumbers (pos : Pos)
  /-- A fatal evaluation has ended with a value. -/
  | result (value : Value)

def Note.message : Note → Except EvalError String
  | .visit who e => do
    let e ← e.text
    return who.label ++ ": " ++ e
  | .freeVariable x =>
    .ok (Evaluator.label .substitution ++ ": free variable " ++ literal x ++ " has no value")
  | .unbound x pos =>
    .ok (Evaluator.label .optional ++ ": unbound variable " ++ literal x ++ " at " ++ pos.literal)
  | .notClosure v pos =>
    .ok (Evaluator.label .optional ++ ": applying non-closure " ++ v.literal ++ " at " ++
      pos.literal)
  | .notNumbers pos => .ok (Evaluator.label .optional ++ ": adding non-numbers at " ++ pos.literal)
  | .result v => do
    let v ← v.render
    return Evaluator.label .environment ++ " result: " ++ v

/-- The log line of a note. A note that cannot be worded never gets into a log. -/
def Note.line (n : Note) : String :=
  match n.message with
  | .ok s => s
  | .error e => e.message

/-- An evaluation in progress, with the log as its world. -/
abbrev Eval := Run EvalError (List Note)

/-- What is watched. -/
structure Watch where
  tracing : Bool
  verbose : Bool
deriving DecidableEq, Repr

/-- Nothing is watched. -/
def Watch.off : Watch := ⟨false, false⟩

namespace Watch

/-- Adds a note at the end of the log. -/
def note (w : Watch) (n : Note) : Eval Unit :=
  if w.verbose then Run.modify (· ++ [n]) else pure ()

/-- Words a note first, which may fail, and then adds it. -/
def noteWorded (w : Watch) (n : Note) : Eval Unit :=
  match n.message with
  | .ok _ => w.note n
  | .error e => Run.fault e

/-- Notes that an evaluator begins with a term. -/
def visit (w : Watch) (who : Evaluator) (e : Term) : Eval Unit :=
  if w.tracing then w.noteWorded (.visit who e) else pure ()

theorem visit_quiet {w : Watch} (h : w.tracing = false) (who : Evaluator) (e : Term) :
    w.visit who e = pure () := by
  simp [visit, h]

end Watch

end EffectCalculus
