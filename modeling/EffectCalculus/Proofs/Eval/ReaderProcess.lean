import EffectCalculus.Eval.Depth
import EffectCalculus.Eval.ReaderProcess
import EffectCalculus.Proofs.Effect.Compose

/-!
# The fatal evaluator as an effect program

The engine of effect programs, with a body for each term, evaluates a term in an environment just as
`inEnv` does: both end together, with the same value or error and the same notes. The environment is
never handed to the body. A body asks for it, and the engine sees to it that each part is evaluated
in the right one.

* `ReaderEvaluation.Stage.rest`: the evaluation that remains where a body waits;
* `ReaderEvaluation.Move.drive_below`, `ReaderEvaluation.Move.le_drive`: a single move, by the
  engine and in the evaluator;
* `ReaderEvaluation.viaProgram_agree_inEnv`: **the engine evaluates as the fatal evaluator does**.
-/

namespace EffectCalculus.ReaderEvaluation

open Run
open Eval (told told_bind told_below)

/-! ## What remains of an evaluation -/

section Rest

variable (eval : Term → Env → Eval Value) (env : Env)

/-- What remains to be evaluated in the environment where a body waits, given how to evaluate terms
inside it. -/
def Stage.rest : Stage → Item → Eval Value
  | .name pos x, d =>
    match d.asEnv.find? x with
    | some v => return v
    | none => Run.fault (.unbound x pos)
  | .closing x b, d => return .closure d.asEnv x b
  | .callee pos a, d =>
    match d.asValue with
    | .closure inner x b => do
      let v ← eval a env
      eval b (Bindings.extend inner x v)
    | f => Run.fault (.notClosure f pos)
  | .argument inner x b, d => eval b (Bindings.extend inner x d.asValue)
  | .left pos r, d => do
    let v ← eval r env
    match d.asValue, v with
    | .num i, .num j => return .num (i + j)
    | u, v => Run.fault (.notNumbers u v pos)
  | .right pos u, d =>
    match u, d.asValue with
    | .num i, .num j => return .num (i + j)
    | u, v => Run.fault (.notNumbers u v pos)
  | .last, d => return d.asValue

/-- The evaluation from a move on. -/
def Move.rest : Move → Eval Value
  | .returns v => return v
  | .raises err => Run.fault err
  | .asks next => next.rest eval env env.datum
  | .evaluates e next => do
    let v ← eval e env
    next.rest eval env v.datum
  | .evaluatesIn inner e next => do
    let v ← eval e inner
    next.rest eval env v.datum

theorem Stage.rest_move (s : Stage) (d : Item) :
    s.rest eval env d = (s.move d).rest eval env := by
  cases s with
  | name pos x =>
    simp only [rest, move]
    cases d.asEnv.find? x <;> rfl
  | closing x b => rfl
  | callee pos a =>
    simp only [rest, move]
    cases d.asValue with
    | closure inner x b => simp only [Move.rest, rest, Datum.asValue_datum]
    | _ => rfl
  | argument inner x b => simp only [rest, move, Move.rest, Datum.asValue_datum, bind_pure]
  | left pos r => simp only [rest, move, Move.rest, Datum.asValue_datum]
  | right pos u =>
    simp only [rest, move]
    cases u <;> cases d.asValue <;> rfl
  | last => rfl

end Rest

/-- An evaluation begins with the first move. -/
theorem inEnv_succ (w : Watch) (n : Nat) (e : Term) (env : Env) :
    inEnv w (n + 1) e env =
      w.visit .environment e >>= fun _ => (Move.first e).rest (inEnv w n) env := by
  conv_lhs => unfold inEnv
  refine bind_congr fun _ => ?_
  cases e with
  | var pos x =>
    cases hx : env.find? x <;>
      simp only [Move.first, Move.rest, Stage.rest, Datum.asEnv_datum, hx]
  | abs pos x b => simp only [Move.first, Move.rest, Stage.rest, Datum.asEnv_datum]
  | app pos f a =>
    refine bind_congr fun callee => ?_
    cases callee <;> simp only [Stage.rest, Datum.asValue_datum]
  | num pos n => rfl
  | add pos l r =>
    refine bind_congr fun u => bind_congr fun v => ?_
    cases u <;> cases v <;> simp only [Datum.asValue_datum]
  | atom a => rfl

/-! ## The engine -/

/-- Runs what a binder has made in the environment. -/
def runIn (go : Go) (env : Env) : Item → Act (List Note) Item
  | .comp (.reader m) => go (.runReader m env.datum)
  | d => Run.fault (.wrongEffect .binder .reader d.kind)

theorem runWith_bind (go : Go) (m : ReaderProg Callback Body) (f : Fn Callback Body) (env : Env) :
    (ReaderProg.bind m f).runWith go env.datum =
      m.runWith go env.datum >>= fun v => go (.call f [v]) >>= runIn go env := by
  refine bind_congr fun v => bind_congr fun next => ?_
  cases next with
  | comp c => cases c <;> rfl
  | _ => rfl

/-- The reader that the block for a term is. -/
def reader (e : Term) : ReaderProg Callback Body :=
  .bind (.pure .null) (.start .reader (.body e))

/-- The engine on the block for a term, in an environment. -/
def opened (go : Go) (env : Env) (e : Term) : Act (List Note) Item :=
  go (.call (.start .reader (.body e)) [.null]) >>= runIn go env

theorem reader_runWith (go : Go) (env : Env) (e : Term) :
    (reader e).runWith go env.datum = opened go env e :=
  runWith_bind go (.pure .null) _ env

/-- The engine on a body that waits, in an environment, when a result has come. -/
def Stage.feed (go : Go) (env : Env) (s : Stage) (d : Item) : Act (List Note) Item :=
  go (.call (.resume .reader (.waiting s)) [d]) >>= runIn go env

/-- A move of a body and what the engine does with it. -/
def Move.drive (go : Go) (move : Move) : Act (List Note) Item :=
  move.make go >>= fun progress => progress.enter go .reader

theorem program_follows (e : Term) : Follows fun go : Go => program go e := block_follows _ _

theorem Move.make_follows (move : Move) : Follows fun go : Go => move.make go := by
  cases move with
  | returns | raises | asks => exact Follows.const _
  | evaluates e next => exact (program_follows e).bind fun _ => Follows.const _
  | evaluatesIn env e next => exact (program_follows e).bind fun _ => Follows.const _

theorem Move.drive_follows (move : Move) : Follows fun go : Go => move.drive go :=
  move.make_follows.bind fun progress => Progress.enter_follows .reader progress

section Host

variable {w : Watch}

theorem steady_host : (host w).Steady where
  call _ _ _ := Below.refl _
  start _ _ := Below.refl _
  resume h body d := by
    cases body with
    | opening e => exact (Below.refl _).bind fun _ => (Move.first e).make_follows h
    | waiting s => exact (s.move d).make_follows h

theorem call_waiting (n : Nat) (s : Stage) (d : Item) :
    perform (host w) (n + 1) (.call (.resume .reader (.waiting s)) [d]) =
      (s.move d).drive (perform (host w) n) :=
  Fn.callWith_resume (host w) (perform (host w) n) .reader (.waiting s) d

theorem call_start (n : Nat) (e : Term) :
    perform (host w) (n + 2) (.call (.start .reader (.body e)) [.null]) =
      (w.visit .environment e).action >>= fun _ => (Move.first e).drive (perform (host w) n) := by
  have h := Fn.callWith_resume (host w) (perform (host w) n) .reader (.opening e) .null
  simp only [host, Body.resume, bind_assoc] at h
  exact h

/-! ## Not more than in the evaluator -/

/-- A move comes to no more than it does in the evaluator. -/
theorem Move.drive_below {n : Nat} {env : Env} {eval : Term → Env → Eval Value}
    (hfeed : ∀ s d, Below (Stage.feed (perform (host w) n) env s d)
      (told Value.datum (s.rest eval env d)))
    (hopened : ∀ inner e, Below (opened (perform (host w) n) inner e)
      (told Value.datum (eval e inner)))
    (move : Move) :
    Below (move.drive (perform (host w) n) >>= runIn (perform (host w) (n + 1)) env)
      (told Value.datum (move.rest eval env)) := by
  have nested : ∀ inner e next,
      Below (opened (perform (host w) n) inner e >>= Stage.feed (perform (host w) n) env next)
        (told Value.datum (eval e inner >>= fun v => next.rest eval env v.datum)) := by
    intro inner e next
    rw [told_bind]
    refine ((hopened inner e).bind fun d => Below.refl _).trans ?_
    simp only [told, bind_assoc, pure_bind]
    exact (Below.refl _).bind fun v => hfeed next v.datum
  cases move with
  | returns v => exact Below.refl _
  | raises err => exact Below.refl _
  | asks next =>
    cases n with
    | zero => exact unfinished_below _
    | succ n =>
      have hrun : (Move.asks next).drive (perform (host w) (n + 1)) >>=
          runIn (perform (host w) (n + 2)) env =
            next.feed (perform (host w) (n + 1)) env env.datum :=
        runWith_bind (perform (host w) (n + 1)) .ask _ env
      rw [hrun]
      exact hfeed next env.datum
  | evaluates e next =>
    cases n with
    | zero => exact unfinished_below _
    | succ n =>
      have hrun : (Move.evaluates e next).drive (perform (host w) (n + 1)) >>=
          runIn (perform (host w) (n + 2)) env =
            opened (perform (host w) (n + 1)) env e >>=
              next.feed (perform (host w) (n + 1)) env := by
        rw [← reader_runWith]
        exact runWith_bind (perform (host w) (n + 1)) (reader e) _ env
      rw [hrun]
      exact nested env e next
  | evaluatesIn inner e next =>
    cases n with
    | zero => exact unfinished_below _
    | succ n =>
      have hrun : (Move.evaluatesIn inner e next).drive (perform (host w) (n + 1)) >>=
          runIn (perform (host w) (n + 2)) env =
            opened (perform (host w) (n + 1)) inner e >>=
              next.feed (perform (host w) (n + 1)) env := by
        rw [← reader_runWith]
        exact runWith_bind (perform (host w) (n + 1))
          (.within (.host (.replace inner)) (reader e)) _ env
      rw [hrun]
      exact nested inner e next

/-- **The engine comes to no more than the evaluator** that has the same bound or a larger one:
where a body waits, and where it begins. -/
theorem perform_below_rest (n : Nat) {m : Nat} (hmn : n ≤ m) :
    (∀ env s d, Below (Stage.feed (perform (host w) n) env s d)
      (told Value.datum (s.rest (inEnv w m) env d))) ∧
    ∀ env e, Below (opened (perform (host w) n) env e) (told Value.datum (inEnv w m e env)) := by
  induction n generalizing m with
  | zero => exact ⟨fun _ _ _ => unfinished_below _, fun _ _ => unfinished_below _⟩
  | succ n ih =>
    have driven : ∀ m, n ≤ m → ∀ env (move : Move),
        Below (move.drive (perform (host w) n) >>= runIn (perform (host w) (n + 1)) env)
          (told Value.datum (move.rest (inEnv w m) env)) :=
      fun m hnm env => Move.drive_below ((ih hnm).1 env) (ih hnm).2
    constructor
    · intro env s d
      rw [Stage.feed, call_waiting, Stage.rest_move]
      exact driven m (by omega) env (s.move d)
    · intro env e
      cases n with
      | zero => exact unfinished_below _
      | succ n =>
        obtain ⟨m, rfl⟩ : ∃ k, m = k + 1 := ⟨m - 1, by omega⟩
        rw [opened, call_start, inEnv_succ, told_bind, bind_assoc]
        refine (Below.refl _).bind fun _ => ?_
        -- The first move may be driven with the larger bound of the body's later turns.
        have deeper : Below ((Move.first e).drive (perform (host w) n))
            ((Move.first e).drive (perform (host w) (n + 1))) :=
          (Move.first e).drive_follows (perform_below steady_host n.le_succ)
        refine (deeper.bind fun d => Below.refl _).trans ?_
        exact driven m (by omega) env (Move.first e)

/-! ## Not less -/

/-- How often a body is still resumed. -/
def Stage.turns : Stage → Nat
  | .callee .. => 3
  | .argument .. | .left .. => 2
  | _ => 1

/-- Where the body waits after a move. -/
def Move.next? : Move → Option Stage
  | .asks next | .evaluates _ next | .evaluatesIn _ _ next => some next
  | _ => none

theorem Stage.turns_move {s next : Stage} {d : Item} (h : next ∈ (s.move d).next?) :
    next.turns < s.turns := by
  cases s with
  | name pos x =>
    simp only [move] at h
    cases hx : d.asEnv.find? x <;> rw [hx] at h <;> cases h
  | callee pos a =>
    simp only [move] at h
    cases hf : d.asValue <;> rw [hf] at h <;> cases h
    simp [turns]
  | argument | left => cases h; simp [turns]
  | right pos u =>
    simp only [move] at h
    cases u <;> cases hv : d.asValue <;> rw [hv] at h <;> cases h
  | closing | last => cases h

/-- What runs what a binder has made, without a bound. -/
noncomputable def runs (w : Watch) (env : Env) : Item → Unbounded EffectError (List Note) Item
  | .comp (.reader m) => (host w).does (.runReader m env.datum)
  | d => .fault (.wrongEffect .binder .reader d.kind)

theorem does_runReader_bind (m : ReaderProg Callback Body) (f : Fn Callback Body) (env : Env) :
    (host w).does (.runReader (.bind m f) env.datum) =
      (host w).does (.runReader m env.datum) >>= fun v =>
        (host w).does (.call f [v]) >>= runs w env := by
  rw [Host.does_runReader_bind steady_host]
  refine congrArg _ (funext fun v => congrArg _ (funext fun next => ?_))
  cases next with
  | comp c => cases c <;> rfl
  | _ => rfl

theorem does_reader (env : Env) (e : Term) :
    (host w).does (.runReader (reader e) env.datum) =
      (host w).does (.call (.start .reader (.body e)) [.null]) >>= runs w env := by
  rw [reader, does_runReader_bind, Host.does_runReader_pure steady_host, pure_bind]

theorem unbounded_program (e : Term) :
    (host w).unbounded (fun go => program go e) = pure (.comp (.reader (reader e))) := by
  refine (Host.unbounded_block steady_host _).trans ?_
  exact Host.does_bind_reader steady_host (.pure .null) rfl

theorem unbounded_drive (move : Move) :
    (host w).unbounded (fun go => move.drive go) =
      (host w).unbounded (fun go => move.make go) >>= fun progress =>
        (host w).unbounded fun go => progress.enter go .reader :=
  Host.unbounded_bind steady_host move.make_follows fun progress =>
    Progress.enter_follows .reader progress

theorem does_waiting (s : Stage) (d : Item) :
    (host w).does (.call (.resume .reader (.waiting s)) [d]) =
      (host w).unbounded fun go => (s.move d).drive go := by
  rw [Host.does_eq steady_host]
  exact congrArg (host w).unbounded
    (funext fun go => Fn.callWith_resume (host w) go .reader (.waiting s) d)

theorem does_start (e : Term) :
    (host w).does (.call (.start .reader (.body e)) [.null]) =
      (w.visit .environment e).action.result >>= fun _ =>
        (host w).unbounded fun go => (Move.first e).drive go := by
  have hresume : ∀ go : Go, (Fn.resume .reader (.opening e)).callWith (host w) go [.null] =
      (w.visit .environment e).action >>= fun _ => (Move.first e).drive go := by
    intro go
    have h := Fn.callWith_resume (host w) go .reader (.opening e) .null
    simp only [host, Body.resume, bind_assoc] at h
    exact h
  have hstart : (host w).unbounded (fun go => (host w).start go (.body e)) =
      pure (Body.opening e) := Host.unbounded_const (pure (Body.opening e))
  rw [Host.does_start steady_host, hstart, pure_bind, Host.does_eq steady_host]
  simp only [Task.attempt, hresume]
  refine (Host.unbounded_bind steady_host (Follows.const _) fun _ =>
    (Move.first e).drive_follows).trans ?_
  rw [Host.unbounded_const]

/-- A reader that a body yields is run, and the body goes on with its result. -/
theorem enter_runs (m : ReaderProg Callback Body) (next : Stage) (env : Env) :
    (host w).unbounded (fun go =>
        (Progress.yielded (.comp (.reader m)) (.waiting next)).enter go .reader) >>= runs w env =
      (host w).does (.runReader m env.datum) >>= fun v =>
        (host w).does (.call (.resume .reader (.waiting next)) [v]) >>= runs w env := by
  have hbind : (host w).unbounded (fun go =>
      (Progress.yielded (.comp (.reader m)) (.waiting next)).enter go .reader) =
        pure (.comp (.reader (.bind m (.resume .reader (.waiting next))))) :=
    Host.does_bind_reader steady_host m rfl
  rw [hbind, pure_bind]
  exact does_runReader_bind m _ env

/-- A move comes to no less than it does in the evaluator. -/
theorem Move.le_drive {env : Env} {eval : Term → Env → Eval Value}
    (hopened : ∀ inner e, (told Value.datum (eval e inner)).result ≤
      (host w).does (.call (.start .reader (.body e)) [.null]) >>= runs w inner)
    (move : Move) (hnext : ∀ s ∈ move.next?, ∀ d,
      (told Value.datum (s.rest eval env d)).result ≤
        (host w).does (.call (.resume .reader (.waiting s)) [d]) >>= runs w env) :
    (told Value.datum (move.rest eval env)).result ≤
      (host w).unbounded (fun go => move.drive go) >>= runs w env := by
  have nested : ∀ inner e next, (∀ d, (told Value.datum (Stage.rest eval env next d)).result ≤
      (host w).does (.call (.resume .reader (.waiting next)) [d]) >>= runs w env) →
      (told Value.datum (eval e inner >>= fun v => next.rest eval env v.datum)).result ≤
        (host w).does (.runReader (reader e) inner.datum) >>= fun v =>
          (host w).does (.call (.resume .reader (.waiting next)) [v]) >>= runs w env := by
    intro inner e next h
    rw [does_reader]
    refine le_trans ?_ (Unbounded.bind_le_bind (hopened inner e) fun v => h v)
    simp only [told, Eval.action_bind, result_bind, result_pure, bind_assoc, pure_bind]
    exact le_refl _
  cases move with
  | returns v =>
    have hdrive : (host w).unbounded (fun go => (Move.returns v).drive go) =
        pure (.comp (.reader (.pure v.datum))) :=
      Host.unbounded_const (pure (Datum.comp (.reader (.pure v.datum))))
    rw [hdrive, pure_bind]
    exact le_of_eq (Host.does_runReader_pure steady_host v.datum env.datum).symm
  | raises err =>
    have hdrive : (host w).unbounded (fun go => (Move.raises err).drive go) =
        .fault (.raised err.message) := Host.unbounded_const (Run.fault (.raised err.message))
    rw [hdrive]
    exact le_refl _
  | asks next =>
    have hmake : (host w).unbounded (fun go => (Move.asks next).make go) =
        pure (.yielded (.comp (.reader .ask)) (.waiting next)) := Host.unbounded_const _
    rw [unbounded_drive, hmake, pure_bind, enter_runs, Host.does_runReader_ask steady_host,
      pure_bind]
    exact hnext next rfl env.datum
  | evaluates e next =>
    have hmake : (host w).unbounded (fun go => (Move.evaluates e next).make go) =
        pure (.yielded (.comp (.reader (reader e))) (.waiting next)) := by
      refine (Host.unbounded_bind steady_host (program_follows e) fun d =>
        Follows.const (pure (Progress.yielded d (.waiting next)))).trans ?_
      rw [unbounded_program, pure_bind]
      exact Host.unbounded_const _
    rw [unbounded_drive, hmake, pure_bind, enter_runs]
    exact nested env e next (hnext next rfl)
  | evaluatesIn inner e next =>
    have hmake : (host w).unbounded (fun go => (Move.evaluatesIn inner e next).make go) =
        pure (.yielded (.comp (.reader (.within (.host (.replace inner)) (reader e))))
          (.waiting next)) := by
      refine (Host.unbounded_bind steady_host (program_follows e) fun d => Follows.const (do
        let c ← d.asComp "local"
        let c ← Run.ofExcept (c.within (.host (.replace inner)))
        return Progress.yielded (.comp c) (.waiting next))).trans ?_
      rw [unbounded_program, pure_bind]
      exact Host.unbounded_const _
    have hreplace : (host w).does (.call (.host (.replace inner)) [env.datum]) =
        pure inner.datum := Host.does_host steady_host fun _ => rfl
    rw [unbounded_drive, hmake, pure_bind, enter_runs, Host.does_runReader_within steady_host,
      hreplace, pure_bind]
    exact nested inner e next (hnext next rfl)

theorem Stage.le_does {env : Env} {eval : Term → Env → Eval Value}
    (hopened : ∀ inner e, (told Value.datum (eval e inner)).result ≤
      (host w).does (.call (.start .reader (.body e)) [.null]) >>= runs w inner)
    (s : Stage) (d : Item) : (told Value.datum (s.rest eval env d)).result ≤
      (host w).does (.call (.resume .reader (.waiting s)) [d]) >>= runs w env := by
  induction hn : s.turns using Nat.strong_induction_on generalizing s d with
  | _ n ih =>
    rw [does_waiting, rest_move]
    exact Move.le_drive hopened (s.move d) fun next hnext d' =>
      ih next.turns (hn ▸ turns_move hnext) next d' rfl

/-- **The engine comes to no less than the evaluator.** -/
theorem inEnv_le_does (n : Nat) (env : Env) (e : Term) :
    (told Value.datum (inEnv w n e env)).result ≤
      (host w).does (.call (.start .reader (.body e)) [.null]) >>= runs w env := by
  induction n generalizing env e with
  | zero => exact fun _ _ h => nomatch h
  | succ n ih =>
    rw [does_start, inEnv_succ, told_bind, result_bind, bind_assoc]
    refine Unbounded.bind_le_bind (le_refl _) fun _ => ?_
    exact Move.le_drive ih (Move.first e) fun s _ => s.le_does ih

end Host

/-! ## Agreement -/

theorem viaProgram_follows (e : Term) (env : Env) : Follows fun go : Go => viaProgram go e env :=
  (program_follows e).bind fun _ => (Follows.const _).bind fun c => c.run_follows _

theorem viaProgram_succ (w : Watch) (n : Nat) (e : Term) (env : Env) :
    viaProgram (perform (host w) (n + 1)) e env = opened (perform (host w) n) env e :=
  reader_runWith (perform (host w) n) env e

theorem unbounded_viaProgram (w : Watch) (e : Term) (env : Env) :
    (host w).unbounded (fun go => viaProgram go e env) =
      (host w).does (.call (.start .reader (.body e)) [.null]) >>= runs w env := by
  refine (Host.unbounded_bind steady_host (program_follows e) fun _ =>
    (Follows.const _).bind fun c => c.run_follows _).trans ?_
  rw [unbounded_program, pure_bind, ← does_reader]
  rfl

/-- **The engine evaluates as the fatal evaluator does**: both end together, with the same value or
error and the same notes. -/
theorem viaProgram_agree_inEnv (w : Watch) (e : Term) (env : Env) :
    Agree (fun n => viaProgram (perform (host w) n) e env)
      (fun n => told Value.datum (inEnv w n e env)) := by
  have rising : Rising fun n => viaProgram (perform (host w) n) e env :=
    steady_host.rising (viaProgram_follows e env)
  have rising' : Rising fun n => (told Value.datum (inEnv w n e env) : Act (List Note) Item) :=
    fun _ _ h => told_below _ (inEnv_below w e env h)
  rw [agree_iff rising rising']
  apply le_antisymm
  · refine unbounded_le fun n => ?_
    cases n with
    | zero => exact fun _ _ h => nomatch h
    | succ n =>
      have below : Below (opened (perform (host w) n) env e) (told Value.datum (inEnv w n e env)) :=
        (perform_below_rest n (Nat.le_refl n)).2 env e
      rw [viaProgram_succ]
      exact le_trans below.result_le (result_le_unbounded rising' n)
  · refine unbounded_le fun n => le_trans (inEnv_le_does n env e) ?_
    exact le_of_eq (unbounded_viaProgram w e env).symm

end EffectCalculus.ReaderEvaluation
