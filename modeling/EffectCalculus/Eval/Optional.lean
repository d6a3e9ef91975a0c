import EffectCalculus.Eval.Watch

/-!
# Evaluations with optional results

Two ways to put them together.

* `Eval.andThen`: one goes on with the result of another.
* `Block`, `Block.drive`: a block yields optional computations one by one, is given what they hold,
  and ends without a result at the first that holds nothing.
-/

namespace EffectCalculus

/-- Goes on with the result of `m` if there is one. -/
def Eval.andThen {α β : Type} (m : Eval (Option α)) (k : α → Eval (Option β)) :
    Eval (Option β) := do
  match ← m with
  | some a => k a
  | none => return none

/-! ## Blocks -/

/-- A block: it returns, fails, or yields an optional computation and goes on with its result. -/
inductive Block (α : Type)
  | ret (a : α)
  | raise (e : EvalError)
  | yield (m : Eval (Option Term)) (rest : Term → Block α)

namespace Block

variable {α β : Type}

protected def bind : Block α → (α → Block β) → Block β
  | .ret a, k => k a
  | .raise e, _ => .raise e
  | .yield m rest, k => .yield m fun v => (rest v).bind k

instance : Monad Block where
  pure := .ret
  bind := Block.bind

/-- Yields `m` and returns what comes back. -/
def await (m : Eval (Option Term)) : Block Term := .yield m .ret

def ofExcept : Except EvalError α → Block α
  | .ok a => .ret a
  | .error e => .raise e

/-- Runs a block: each yielded computation is run in turn, and one without a result ends the
block. -/
def drive : Block α → Eval (Option α)
  | .ret a => return some a
  | .raise e => Run.fault e
  | .yield m rest => do
    match ← m with
    | some v => (rest v).drive
    | none => return none

end Block

end EffectCalculus
