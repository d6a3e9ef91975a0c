import EffectCalculus.Eval.Depth
import EffectCalculus.Eval.BlockProcess
import EffectCalculus.Proofs.Effect.Block
import EffectCalculus.Proofs.Script.Steady

/-!
# The block evaluator as an effect program

The engine of effect programs, with a body for each term, evaluates a term just as `byBlock` does:
both end together, with the same result or error and the same notes. In particular the checks of the
maybe effect never fail, whatever the bodies yield.

* `BlockEvaluation.Stage.block`: the block that remains where a body waits;
* `BlockEvaluation.Move.drive_below`, `BlockEvaluation.Move.le_drive`: a single move, by the engine
  and in the block;
* `BlockEvaluation.program_agree_byBlock`: **the engine evaluates as the block evaluator does**;
* `BlockEvaluation.program_raises`: the only errors are those that the bodies raise.
-/

namespace EffectCalculus.BlockEvaluation

open Run
open Eval (told told_bind told_below)

/-! ## Evaluations with computations as results -/

/-- What an evaluation gives passes the check for the maybe effect. -/
theorem told_ensure (m : Eval (Option Term)) (slot : Slot) :
    (told computation m >>= fun d => d.ensure slot .maybe) = told computation m := by
  simp only [told, bind_assoc, pure_bind]
  refine bind_congr fun v? => ?_
  cases v? <;> rfl

/-! ## What remains of a block -/

/-- The block that remains where a body waits, given how to evaluate terms inside it. -/
def Stage.block (eval : Term → Eval (Option Term)) : Stage → Term → Block Term
  | .callee a, .abs _ x b => do
    let v ← Block.await (eval a)
    let e ← Block.ofExcept (Term.subst x v b)
    Block.await (eval e)
  | .callee _, _ => Block.await (return none)
  | .argument x b, v => do
    let e ← Block.ofExcept (Term.subst x v b)
    Block.await (eval e)
  | .left pos r, u => do
    let v ← Block.await (eval r)
    Block.await (return Term.sum? pos u v)
  | .right pos u, v => Block.await (return Term.sum? pos u v)
  | .last, v => return v

/-- The block from a move on. -/
def Move.block (eval : Term → Eval (Option Term)) : Move → Block Term
  | .returns v => .ret v
  | .raises err => .raise err
  | .yields v? next => .yield (return v?) (next.block eval)
  | .evaluates e next => .yield (eval e) (next.block eval)

section Block

variable (eval : Term → Eval (Option Term))

theorem Move.block_first (e : Term) : e.block eval = (Move.first e).block eval := by
  cases e with
  | app pos f a =>
    refine congrArg (Block.yield (eval f)) (funext fun callee => ?_)
    cases callee <;> rfl
  | _ => rfl

theorem Stage.block_move (s : Stage) (v : Term) : s.block eval v = (s.move v).block eval := by
  cases s with
  | callee a => cases v <;> rfl
  | argument x b =>
    simp only [Stage.block, Stage.move]
    cases Term.subst x v b <;> rfl
  | _ => rfl

/-- The same, as a computation, when an optional result has come: without a result it is over. -/
def Stage.goOn (s : Stage) : Option Term → Act (List Note) Item
  | some v => told computation (s.block eval v).drive
  | none => pure (computation none)

theorem Stage.told_yield (m : Eval (Option Term)) (s : Stage) :
    told computation (Block.yield m (s.block eval)).drive = m.action >>= s.goOn eval := by
  rw [Block.drive, told_bind]
  refine bind_congr fun v? => ?_
  cases v? <;> rfl

end Block

/-! ## The engine -/

/-- The engine on a body that waits, when an optional result has come. -/
def Stage.feed (go : Go) (s : Stage) : Option Term → Act (List Note) Item
  | some v => go (.call (.resume .maybe (.waiting s)) [v.datum])
  | none => go (.bind (computation none) (.resume .maybe (.waiting s)))

theorem enter_yielded (go : Go) (v? : Option Term) (s : Stage) :
    (Progress.yielded (computation v?) (.waiting s)).enter go .maybe = s.feed go v? := by
  cases v? <;> rfl

/-- A move of a body and what the engine does with it. -/
def Move.drive (go : Go) (move : Move) : Act (List Note) Item :=
  move.make go >>= fun progress => progress.enter go .maybe

theorem Move.drive_yields (go : Go) (v? : Option Term) (next : Stage) :
    (Move.yields v? next).drive go = next.feed go v? :=
  enter_yielded go v? next

theorem Move.drive_evaluates (go : Go) (e : Term) (next : Stage) :
    (Move.evaluates e next).drive go =
      program go e >>= fun d => (Progress.yielded d (.waiting next)).enter go .maybe := by
  simp only [drive, make, bind_assoc, pure_bind]

/-- An evaluation in the place of a block. -/
theorem told_enter (go : Go) (m : Eval (Option Term)) (next : Stage) :
    (told computation m >>= fun d => (Progress.yielded d (.waiting next)).enter go .maybe) =
      m.action >>= next.feed go := by
  simp only [told, bind_assoc, pure_bind, enter_yielded]

theorem program_follows (e : Term) : Follows fun go : Go => program go e := block_follows _ _

/-- A move comes to no more than it does in the block. -/
theorem Move.drive_below {go : Go} {eval : Term → Eval (Option Term)}
    (hfeed : ∀ s v?, Below (Stage.feed go s v?) (s.goOn eval v?))
    (hprogram : ∀ e, Below (program go e) (told computation (eval e))) (move : Move) :
    Below (move.drive go) (told computation (move.block eval).drive) := by
  cases move with
  | returns v => exact Below.refl _
  | raises err => exact Below.refl _
  | yields v? next =>
    rw [drive_yields, Move.block, Stage.told_yield, Eval.action_pure, pure_bind]
    exact hfeed next v?
  | evaluates e next =>
    rw [drive_evaluates, Move.block, Stage.told_yield]
    refine ((hprogram e).bind fun d => Below.refl _).trans ?_
    rw [told_enter]
    exact (Below.refl _).bind (hfeed next)

section Host

variable (w : Watch)

theorem Move.make_follows (move : Move) : Follows fun go : Go => move.make go := by
  cases move with
  | returns | raises | yields => exact Follows.const _
  | evaluates e next => exact (program_follows e).bind fun _ => Follows.const _

theorem Move.drive_follows (move : Move) : Follows fun go : Go => move.drive go :=
  move.make_follows.bind fun progress => Progress.enter_follows .maybe progress

theorem steady_host : (host w).Steady where
  call _ _ _ := Below.refl _
  start _ _ := Below.refl _
  resume h body d := by
    cases body with
    | opening e => exact (Below.refl _).bind fun _ => (Move.first e).make_follows h
    | waiting s => exact (s.move d.asTerm).make_follows h

theorem call_waiting (n : Nat) (s : Stage) (v : Term) :
    perform (host w) (n + 1) (.call (.resume .maybe (.waiting s)) [v.datum]) =
      (s.move v).drive (perform (host w) n) := by
  have h := Fn.callWith_resume (host w) (perform (host w) n) .maybe (.waiting s) v.datum
  simp only [host, Body.resume, Datum.asTerm_datum] at h
  exact h

theorem call_opening (n : Nat) (e : Term) (d : Item) :
    perform (host w) (n + 1) (.call (.resume .maybe (.opening e)) [d]) =
      (w.visit .block e).action >>= fun _ => (Move.first e).drive (perform (host w) n) := by
  have h := Fn.callWith_resume (host w) (perform (host w) n) .maybe (.opening e) d
  simp only [host, Body.resume, bind_assoc] at h
  exact h

theorem program_eq (n : Nat) (e : Term) :
    program (perform (host w) (n + 2)) e =
      perform (host w) n (.call (.resume .maybe (.opening e)) [.null]) >>=
        fun d => d.ensure .flatMap .maybe := rfl

/-! ## Not more than in the block -/

/-- What remains to be evaluated where a body stands, up to a depth. -/
def Body.rest (n : Nat) : Body → Term → Eval (Option Term)
  | .opening e, _ => byBlock w n e
  | .waiting s, v => (s.block (byBlock w n) v).drive

variable {w}

theorem program_below {n m : Nat} {e : Term}
    (h : Below (perform (host w) n (.call (.resume .maybe (.opening e)) [.null]))
      (told computation (byBlock w m e))) :
    Below (program (perform (host w) n) e) (told computation (byBlock w m e)) := by
  have deeper : Below (program (perform (host w) n) e) (program (perform (host w) (n + 2)) e) :=
    program_follows e (perform_below (steady_host w) (Nat.le_add_right n 2))
  refine deeper.trans ?_
  rw [program_eq, ← told_ensure _ .flatMap]
  exact h.bind fun _ => Below.refl _

/-- **The engine comes to no more than the block evaluator** that has the same bound or a larger
one. -/
theorem perform_below_rest {n m : Nat} (hmn : n ≤ m) (body : Body) (v : Term) :
    Below (perform (host w) n (.call (.resume .maybe body) [v.datum]))
      (told computation (body.rest w m v)) := by
  induction n generalizing m body v with
  | zero => exact unfinished_below _
  | succ n ih =>
    have feed : ∀ m, n ≤ m → ∀ s v?,
        Below (Stage.feed (perform (host w) n) s v?) (s.goOn (byBlock w m) v?) := by
      intro m hnm s v?
      cases v? with
      | some v => exact ih hnm (.waiting s) v
      | none =>
        cases n with
        | zero => exact unfinished_below _
        | succ n => exact Below.refl _
    have nested : ∀ m, n ≤ m → ∀ e,
        Below (program (perform (host w) n) e) (told computation (byBlock w m e)) :=
      fun m hnm e => program_below (ih hnm (.opening e) (.atom .null))
    cases body with
    | waiting s =>
      rw [call_waiting, Body.rest, Stage.block_move]
      exact Move.drive_below (feed m (by omega)) (nested m (by omega)) (s.move v)
    | opening e =>
      obtain ⟨m, rfl⟩ : ∃ k, m = k + 1 := ⟨m - 1, by omega⟩
      rw [call_opening, Body.rest, byBlock, told_bind]
      refine (Below.refl _).bind fun _ => ?_
      rw [Move.block_first]
      exact Move.drive_below (feed m (by omega)) (nested m (by omega)) (Move.first e)

/-! ## Not less -/

/-- How often a body is still resumed. -/
def Stage.turns : Stage → Nat
  | .callee _ | .left _ _ => 3
  | .argument _ _ | .right _ _ => 2
  | .last => 1

/-- Where the body waits after a move. -/
def Move.next? : Move → Option Stage
  | .yields _ next | .evaluates _ next => some next
  | _ => none

theorem Stage.turns_move {s next : Stage} {v : Term} (h : next ∈ (s.move v).next?) :
    next.turns < s.turns := by
  cases s with
  | callee a => cases v <;> cases h <;> simp [turns]
  | argument x b =>
    simp only [move] at h
    cases hs : Term.subst x v b <;> rw [hs] at h <;> cases h
    simp [turns]
  | left | right => cases h; simp [turns]
  | last => cases h

theorem does_resume (body : Body) (d : Item) :
    (host w).does (.call (.resume .maybe body) [d]) =
      (host w).unbounded fun go =>
        (host w).resume go body d >>= fun progress => progress.enter go .maybe := by
  rw [Host.does_eq (steady_host w)]
  exact congrArg (host w).unbounded (funext fun go => Fn.callWith_resume (host w) go .maybe body d)

/-- What the engine comes to from a place where the body waits. -/
theorem does_waiting (s : Stage) (v : Term) :
    (host w).does (.call (.resume .maybe (.waiting s)) [v.datum]) =
      (host w).unbounded fun go => (s.move v).drive go := by
  rw [does_resume]
  simp only [host, Body.resume, Datum.asTerm_datum]
  rfl

theorem does_opening (e : Term) (d : Item) :
    (host w).does (.call (.resume .maybe (.opening e)) [d]) =
      ((w.visit .block e).action).result >>= fun _ =>
        (host w).unbounded fun go => (Move.first e).drive go := by
  rw [does_resume]
  simp only [host, Body.resume, bind_assoc]
  refine (Host.unbounded_bind (steady_host w) (Follows.const _) fun _ => ?_).trans ?_
  · exact (Move.first e).drive_follows
  · rw [Host.unbounded_const]
    rfl

theorem unbounded_program (e : Term) :
    (host w).unbounded (fun go => program go e) =
      (host w).does (.call (.resume .maybe (.opening e)) [.null]) >>=
        fun d => (d.ensure .flatMap .maybe).result := by
  refine (Host.unbounded_block_maybe (steady_host w) _).trans ?_
  rw [Host.does_call_start (steady_host w)]
  congr 1
  exact (congrArg (· >>= _) (Host.unbounded_const _)).trans (pure_bind _ _)

theorem Stage.goOn_le_feed {eval : Term → Eval (Option Term)} {s : Stage}
    (h : ∀ v, (told computation (s.block eval v).drive).result ≤
      (host w).does (.call (.resume .maybe (.waiting s)) [v.datum])) (v? : Option Term) :
    (s.goOn eval v?).result ≤ (host w).unbounded fun go => s.feed go v? := by
  cases v? with
  | some v => exact h v
  | none => exact le_of_eq (Host.does_bind_nothing (steady_host w) _).symm

/-- A move comes to no less than it does in the block. -/
theorem Move.le_drive {eval : Term → Eval (Option Term)}
    (hprogram : ∀ e,
      (told computation (eval e)).result ≤ (host w).unbounded fun go => program go e)
    (move : Move) (hnext : ∀ s ∈ move.next?, ∀ v,
      (told computation (s.block eval v).drive).result ≤
        (host w).does (.call (.resume .maybe (.waiting s)) [v.datum])) :
    (told computation (move.block eval).drive).result ≤
      (host w).unbounded fun go => move.drive go := by
  cases move with
  | returns v => exact le_of_eq (Host.unbounded_const _).symm
  | raises err => exact le_of_eq (Host.unbounded_const _).symm
  | yields v? next =>
    simp only [drive_yields]
    rw [Move.block, Stage.told_yield, Eval.action_pure, pure_bind]
    exact Stage.goOn_le_feed (hnext next rfl) v?
  | evaluates e next =>
    have hand : ∀ d : Item, Follows fun go : Go =>
        (Progress.yielded d (.waiting next)).enter go .maybe :=
      fun d => Progress.enter_follows .maybe _
    simp only [drive_evaluates]
    rw [Host.unbounded_bind (steady_host w) (program_follows e) hand, Move.block,
      Stage.told_yield, result_bind]
    refine le_trans ?_ (Unbounded.bind_le_bind (hprogram e) fun d => le_refl _)
    simp only [told, result_bind, result_pure, bind_assoc, pure_bind, enter_yielded]
    exact Unbounded.bind_le_bind (le_refl _) (Stage.goOn_le_feed (hnext next rfl))

theorem Stage.le_does {eval : Term → Eval (Option Term)}
    (hprogram : ∀ e,
      (told computation (eval e)).result ≤ (host w).unbounded fun go => program go e)
    (s : Stage) (v : Term) : (told computation (s.block eval v).drive).result ≤
      (host w).does (.call (.resume .maybe (.waiting s)) [v.datum]) := by
  induction hn : s.turns using Nat.strong_induction_on generalizing s v with
  | _ n ih =>
    rw [does_waiting, block_move]
    exact Move.le_drive hprogram (s.move v) fun next hnext u =>
      ih next.turns (hn ▸ turns_move hnext) next u rfl

/-- **The engine comes to no less than the block evaluator.** -/
theorem byBlock_le_program (n : Nat) (e : Term) :
    (told computation (byBlock w n e)).result ≤ (host w).unbounded fun go => program go e := by
  induction n generalizing e with
  | zero => exact fun _ _ h => nomatch h
  | succ n ih =>
    have opened : (told computation (byBlock w (n + 1) e)).result ≤
        (host w).does (.call (.resume .maybe (.opening e)) [.null]) := by
      rw [does_opening, byBlock, told_bind, result_bind, Move.block_first]
      refine Unbounded.bind_le_bind (le_refl _) fun _ => ?_
      exact Move.le_drive ih (Move.first e) fun s _ => s.le_does ih
    rw [unbounded_program, ← told_ensure _ .flatMap, result_bind]
    exact Unbounded.bind_le_bind opened fun _ => le_refl _

end Host

/-! ## Agreement -/

/-- **The engine evaluates as the block evaluator does**: both end together, with the same result or
error and the same notes. -/
theorem program_agree_byBlock (w : Watch) (e : Term) :
    Agree (fun n => program (perform (host w) n) e)
      (fun n => told computation (byBlock w n e)) := by
  have rising : Rising fun n => program (perform (host w) n) e :=
    (steady_host w).rising (program_follows e)
  have rising' : Rising fun n => told computation (byBlock w n e) :=
    fun _ _ h => told_below _ (byBlock_below w e h)
  rw [agree_iff rising rising']
  apply le_antisymm
  · refine unbounded_le fun n => ?_
    have below : Below (program (perform (host w) n) e) (told computation (byBlock w n e)) :=
      program_below (perform_below_rest (Nat.le_refl n) (.opening e) (.atom .null))
    exact le_trans below.result_le (result_le_unbounded rising' n)
  · exact unbounded_le fun n => byBlock_le_program n e

/-- The only errors are those that the bodies raise: no check of the maybe effect fails. -/
theorem program_raises {w : Watch} {e : Term} {log log' : List Note} {err : EffectError}
    (h : Settles (fun n => program (perform (host w) n) e) log (.fault err) log') :
    ∃ x : EvalError, err = .raised x.message ∧
      Settles (fun n => byBlock w n e) log (.fault x) log' := by
  obtain ⟨-, n, hn⟩ := (program_agree_byBlock w e log _ log').mp h
  obtain hraised | ⟨v?, log₁, -, hpure⟩ := bind_eq_fault.mp hn
  · obtain ⟨x, hx, rfl⟩ := Eval.action_eq_fault hraised
    exact ⟨x, rfl, by simp, n, hx⟩
  · cases hpure

end EffectCalculus.BlockEvaluation
