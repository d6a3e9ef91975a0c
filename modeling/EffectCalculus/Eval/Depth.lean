import EffectCalculus.Eval.Environment

/-!
# The bound of an evaluation

A larger bound changes nothing about an evaluation that ends: `bySubstitution_below`,
`byBlock_below`, `inEnv_below`, `inEnv?_below`. So two bounds within which an evaluation ends give
the same log and the same outcome.
-/

namespace EffectCalculus

open Run

theorem Eval.andThen_below {α β : Type} {m m' : Eval (Option α)} {k k' : α → Eval (Option β)}
    (hm : Below m m') (hk : ∀ a, Below (k a) (k' a)) : Below (m.andThen k) (m'.andThen k') := by
  refine hm.bind fun a => ?_
  cases a with
  | none => exact Below.refl _
  | some a => exact hk a

theorem bySubstitution_below_succ (w : Watch) (n : Nat) (e : Term) :
    Below (bySubstitution w n e) (bySubstitution w (n + 1) e) := by
  induction n generalizing e with
  | zero => exact unfinished_below _
  | succ n ih =>
    unfold bySubstitution
    refine (Below.refl _).bind fun _ => ?_
    cases e with
    | var | abs | num | atom => exact Below.refl _
    | app _ f a =>
      refine Eval.andThen_below (ih f) fun callee => ?_
      cases callee with
      | abs _ x b =>
        exact Eval.andThen_below (ih a) fun v => (Below.refl _).bind fun e => ih e
      | _ => exact Below.refl _
    | add pos l r =>
      exact Eval.andThen_below (ih l) fun u => Eval.andThen_below (ih r) fun v => Below.refl _

/-! ## Blocks -/

/-- Two blocks that yield computations of which the one ends as the other does. -/
inductive Block.Below {α : Type} : Block α → Block α → Prop
  | ret (a : α) : Below (.ret a) (.ret a)
  | raise (e : EvalError) : Below (.raise e) (.raise e)
  | yield {m m' : Eval (Option Term)} {rest rest' : Term → Block α} (hm : Run.Below m m')
      (hrest : ∀ v, Below (rest v) (rest' v)) : Below (.yield m rest) (.yield m' rest')

theorem Block.Below.drive {α : Type} {b b' : Block α} (h : Block.Below b b') :
    Run.Below b.drive b'.drive := by
  induction h with
  | ret | raise => exact Run.Below.refl _
  | yield hm _ ih =>
    rw [Block.drive, Block.drive]
    refine hm.bind fun v => ?_
    cases v with
    | none => exact Run.Below.refl _
    | some v => exact ih v

theorem Block.Below.bind {α β : Type} {b b' : Block α} {k k' : α → Block β}
    (h : Block.Below b b') (hk : ∀ a, Block.Below (k a) (k' a)) :
    Block.Below (b >>= k) (b' >>= k') := by
  induction h with
  | ret a => exact hk a
  | raise e => exact .raise e
  | yield hm _ ih => exact .yield hm ih

theorem Block.await_below {m m' : Eval (Option Term)} (h : Run.Below m m') :
    Block.Below (Block.await m) (Block.await m') :=
  .yield h .ret

theorem Block.Below.refl {α : Type} (b : Block α) : Block.Below b b := by
  induction b with
  | ret a => exact .ret a
  | raise e => exact .raise e
  | yield m rest ih => exact .yield (Run.Below.refl m) ih

theorem Term.block_below {eval eval' : Term → Eval (Option Term)}
    (h : ∀ e, Run.Below (eval e) (eval' e)) (e : Term) :
    Block.Below (e.block eval) (e.block eval') := by
  cases e with
  | var | abs | num | atom => exact Block.Below.refl _
  | app _ f a =>
    refine (Block.await_below (h f)).bind fun callee => ?_
    cases callee with
    | abs _ x b =>
      exact (Block.await_below (h a)).bind fun v =>
        (Block.Below.refl _).bind fun e => Block.await_below (h e)
    | _ => exact Block.Below.refl _
  | add pos l r =>
    exact (Block.await_below (h l)).bind fun u =>
      (Block.await_below (h r)).bind fun v => Block.Below.refl _

theorem byBlock_below_succ (w : Watch) (n : Nat) (e : Term) :
    Below (byBlock w n e) (byBlock w (n + 1) e) := by
  induction n generalizing e with
  | zero => exact unfinished_below _
  | succ n ih =>
    unfold byBlock
    exact (Below.refl _).bind fun _ => (Term.block_below ih e).drive

/-! ## Environments -/

theorem inEnv_below_succ (w : Watch) (n : Nat) (e : Term) (env : Env) :
    Below (inEnv w n e env) (inEnv w (n + 1) e env) := by
  induction n generalizing e env with
  | zero => exact unfinished_below _
  | succ n ih =>
    unfold inEnv
    refine (Below.refl _).bind fun _ => ?_
    cases e with
    | var | abs | num | atom => exact Below.refl _
    | app pos f a =>
      refine (ih f env).bind fun callee => ?_
      cases callee with
      | closure inner x b => exact (ih a env).bind fun v => ih b _
      | _ => exact Below.refl _
    | add pos l r => exact (ih l env).bind fun u => (ih r env).bind fun v => Below.refl _

theorem inEnv?_below_succ (w : Watch) (n : Nat) (e : Term) (env : Env) :
    Below (inEnv? w n e env) (inEnv? w (n + 1) e env) := by
  induction n generalizing e env with
  | zero => exact unfinished_below _
  | succ n ih =>
    unfold inEnv?
    refine (Below.refl _).bind fun _ => ?_
    cases e with
    | var | abs | num | atom => exact Below.refl _
    | app pos f a =>
      refine Eval.andThen_below (ih f env) fun callee => ?_
      cases callee with
      | closure inner x b => exact Eval.andThen_below (ih a env) fun v => ih b _
      | _ => exact Below.refl _
    | add pos l r =>
      exact Eval.andThen_below (ih l env) fun u => Eval.andThen_below (ih r env) fun v =>
        Below.refl _

/-! ## All larger bounds -/

theorem bySubstitution_below (w : Watch) (e : Term) {m n : Nat} (h : m ≤ n) :
    Below (bySubstitution w m e) (bySubstitution w n e) :=
  below_of_succ (bySubstitution_below_succ w · e) h

theorem byBlock_below (w : Watch) (e : Term) {m n : Nat} (h : m ≤ n) :
    Below (byBlock w m e) (byBlock w n e) :=
  below_of_succ (byBlock_below_succ w · e) h

theorem inEnv_below (w : Watch) (e : Term) (env : Env) {m n : Nat} (h : m ≤ n) :
    Below (inEnv w m e env) (inEnv w n e env) :=
  below_of_succ (inEnv_below_succ w · e env) h

theorem inEnv?_below (w : Watch) (e : Term) (env : Env) {m n : Nat} (h : m ≤ n) :
    Below (inEnv? w m e env) (inEnv? w n e env) :=
  below_of_succ (inEnv?_below_succ w · e env) h

end EffectCalculus
