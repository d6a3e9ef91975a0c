import EffectCalculus.Proofs.Eval.Log
import EffectCalculus.Proofs.Value.Form

/-!
# Where one evaluation succeeds

An evaluation with a result has evaluated nothing that fails. Another evaluation that differs from
it only where it would have failed has a result too.

* `Eval.Leads`: wherever the one evaluation has a result, the other has a related one, with a lemma
  for each way to go on;
* `Value.Widened`, `Env.Widened`: values and environments with more bindings;
* `inEnv?_leads_widened`: **more bindings lead to the same results, up to more bindings**;
* `inEnv?_returns_widened`: adding bindings never breaks or changes a successful evaluation.
-/

namespace EffectCalculus

open Eval

/-! ## One result leads to another -/

namespace Eval

variable {α β γ δ : Type}

/-- Wherever `m` ends with a result, `m'` ends with a related result, whatever stands in the log. -/
def Leads (R : α → β → Prop) (m : Eval (Option α)) (m' : Eval (Option β)) : Prop :=
  ∀ ⦃log a log'⦄, m log = (.done (some a), log') →
    ∃ b notes, m'.Ends (.done (some b)) notes ∧ R a b

namespace Leads

variable {R : α → β → Prop} {S : γ → δ → Prop} {m : Eval (Option α)} {m' : Eval (Option β)}

theorem pure {a : α} {b : β} (h : R a b) : Leads R (Pure.pure (some a)) (Pure.pure (some b)) := by
  rintro log _ log' ⟨⟩
  exact ⟨b, [], ends_pure _, h⟩

theorem unfinished (m' : Eval (Option β)) : Leads R Run.unfinished m' := by
  rintro log a log' ⟨⟩

/-- A failure with its note leads anywhere. -/
theorem noted (w : Watch) (note : Note) (m' : Eval (Option β)) :
    Leads R (w.note note >>= fun _ => Pure.pure none) m' := by
  intro log a log' h
  obtain ⟨_, log₁, -, hnone⟩ := Run.bind_eq_done.mp h
  cases hnone

theorem andThen {k : α → Eval (Option γ)} {k' : β → Eval (Option δ)} (hm : Leads R m m')
    (hk : ∀ a b, R a b → Leads S (k a) (k' b)) : Leads S (m.andThen k) (m'.andThen k') := by
  intro log c log' h
  obtain ⟨a, log₁, ha, hc⟩ := andThen_eq_some.mp h
  obtain ⟨b, notes, hb, hab⟩ := hm ha
  obtain ⟨d, notes', hd, hcd⟩ := hk a b hab hc
  exact ⟨d, _, hb.andThen_some hd, hcd⟩

/-- What an evaluation begins with has no part in where it leads. -/
theorem begun (w : Watch) (who : Evaluator) (e : Term) (h : Leads R m m') :
    Leads R (w.visit who e >>= fun _ => m) m' := by
  intro log a log' hm
  obtain ⟨_, log₁, -, ha⟩ := Run.bind_eq_done.mp hm
  exact h ha

/-- Any evaluator can begin with a term without atoms. -/
theorem visit (w : Watch) (who who' : Evaluator) (e : Term) {e' : Term} (he' : e'.WellFormed)
    (h : Leads R m m') :
    Leads R (w.visit who e >>= fun _ => m) (w.visit who' e' >>= fun _ => m') := by
  refine begun w who e fun log a log' ha => ?_
  obtain ⟨b, notes, hb, hab⟩ := h ha
  exact ⟨b, _, (w.visit_of_wellFormed he' who').bind_done hb, hab⟩

theorem returns {f : Nat → Eval (Option α)} {g : Nat → Eval (Option β)}
    (h : ∀ n, Leads R (f n) (g n)) {a : α} (ha : Returns f (some a)) :
    ∃ b, Returns g (some b) ∧ R a b := by
  obtain ⟨log, -, n, hn⟩ := ha
  obtain ⟨b, notes, hb, hab⟩ := h n hn
  exact ⟨b, ⟨notes, by simp, n, hb.eq⟩, hab⟩

end Leads

end Eval

/-! ## More bindings -/

/-- The same number, or closures with one parameter and one body, where each binding that the first
closure keeps is kept by the second, with a value that is widened in turn. -/
inductive Value.Widened : Value → Value → Prop
  | num (n : Int) : Widened (.num n) (.num n)
  | closure {env env' : Env} {x : String} {b : Term}
      (kept : ∀ y v, env.find? y = some v → ∃ v', env'.find? y = some v')
      (widened : ∀ y v v', env.find? y = some v → env'.find? y = some v' → Widened v v') :
      Widened (.closure env x b) (.closure env' x b)

/-- Each binding of the first environment is in the second, with a widened value. -/
def Env.Widened (env env' : Env) : Prop :=
  ∀ y v, env.find? y = some v → ∃ v', env'.find? y = some v' ∧ v.Widened v'

theorem widened_closure_iff {env env' : Env} {x : String} {b : Term} :
    (Value.closure env x b).Widened (.closure env' x b) ↔ Env.Widened env env' := by
  constructor
  · rintro (_ | ⟨kept, widened⟩) y v hv
    obtain ⟨v', hv'⟩ := kept y v hv
    exact ⟨v', hv', widened y v v' hv hv'⟩
  · intro h
    refine .closure (fun y v hv => ?_) fun y v v' hv hv' => ?_
    · obtain ⟨v', hv', -⟩ := h y v hv
      exact ⟨v', hv'⟩
    · obtain ⟨u, hu, hvu⟩ := h y v hv
      cases hu.symm.trans hv'
      exact hvu

theorem Value.WellFormed.widened {v : Value} (h : v.WellFormed) : v.Widened v := by
  induction h with
  | num n => exact .num n
  | closure _ _ ih =>
    refine widened_closure_iff.mpr fun y v hv => ?_
    exact ⟨v, hv, ih _ (Bindings.mem_of_find? hv)⟩

/-- A name that is bound anew is widened, also where it hides a binding that only the second
environment has. -/
theorem Env.Widened.extend {env env' : Env} (h : Env.Widened env env') (x : String) {v v' : Value}
    (hv : v.Widened v') : Env.Widened (env.extend x v) (env'.extend x v') := by
  intro y u hu
  by_cases hyx : y = x
  · subst hyx
    rw [Bindings.find?_extend_self] at hu
    cases hu
    exact ⟨v', Bindings.find?_extend_self _ _ _, hv⟩
  · rw [Bindings.find?_extend_of_ne _ _ hyx] at hu ⊢
    exact h y u hu

/-- **More bindings lead to the same results, up to more bindings.** -/
theorem inEnv?_leads_widened (w : Watch) (n : Nat) {e : Term} (he : e.WellFormed) {env env' : Env}
    (henv : Env.WellFormed env) (h : Env.Widened env env') :
    Leads (fun v v' => v.WellFormed ∧ v.Widened v') (inEnv? w n e env) (inEnv? w n e env') := by
  induction n generalizing e env env' with
  | zero => exact Leads.unfinished _
  | succ n ih =>
    unfold inEnv?
    refine Leads.visit w .optional .optional e he ?_
    cases e with
    | var pos x =>
      cases hv : env.find? x with
      | none =>
        simp only [hv]
        exact Leads.noted w _ _
      | some v =>
        obtain ⟨v', hv', hwiden⟩ := h x v hv
        simp only [hv, hv']
        exact Leads.pure ⟨henv.find? hv, hwiden⟩
    | abs pos x b => exact Leads.pure ⟨.closure henv he, widened_closure_iff.mpr h⟩
    | num pos k => exact Leads.pure ⟨.num k, .num k⟩
    | atom => exact he.elim
    | app pos f a =>
      refine (ih he.1 henv h).andThen fun callee callee' ⟨hcallee, hwiden⟩ => ?_
      cases hwiden with
      | num k => exact Leads.noted w _ _
      | @closure inner inner' x b kept widened =>
        have hinner : Env.Widened inner inner' :=
          widened_closure_iff.mp (Value.Widened.closure (x := x) (b := b) kept widened)
        cases hcallee with
        | closure bindings body =>
          refine (ih he.2 henv h).andThen fun v v' ⟨hv, hvv⟩ => ?_
          exact ih body (Env.WellFormed.extend bindings x hv) (hinner.extend x hvv)
    | add pos l r =>
      refine (ih he.1 henv h).andThen fun u u' ⟨_, hu⟩ => ?_
      refine (ih he.2 henv h).andThen fun v v' ⟨_, hv⟩ => ?_
      cases hu with
      | closure => exact Leads.noted w _ _
      | num i =>
        cases hv with
        | closure => exact Leads.noted w _ _
        | num j => exact Leads.pure ⟨.num (i + j), .num (i + j)⟩

/-- **Adding bindings never breaks or changes a successful evaluation.** If every binding of `env`
is in `env'` and the evaluation in `env` has a result, then the evaluation in `env'` has the same
result, up to the bindings that closures keep in addition. -/
theorem inEnv?_returns_widened {e : Term} (he : e.WellFormed) {env env' : Env}
    (henv : Env.WellFormed env) (h : ∀ x v, env.find? x = some v → env'.find? x = some v)
    {w : Watch} {v : Value} (hv : Returns (inEnv? w · e env) (some v)) :
    ∃ v', Returns (inEnv? w · e env') (some v') ∧ v.Widened v' := by
  have hwiden : Env.Widened env env' := fun y u hu => ⟨u, h y u hu, (henv.find? hu).widened⟩
  obtain ⟨v', hv', -, hvv⟩ := Leads.returns (fun n => inEnv?_leads_widened w n he henv hwiden) hv
  exact ⟨v', hv', hvv⟩

/-- A further binding of `x` is hidden by the parameter of that name and kept by the closure of the
argument, and the sum is 3 with it and without it. -/
theorem inEnv?_returns_widened_hidden :
    let arg : Term := .abs ⟨0, 4⟩ "z" (.var ⟨0, 5⟩ "x")
    let e : Term := .app ⟨0, 0⟩ (.app ⟨0, 1⟩
      (.abs ⟨0, 2⟩ "f" (.abs ⟨0, 3⟩ "x" (.add ⟨0, 6⟩ (.var ⟨0, 7⟩ "x") (.var ⟨0, 8⟩ "y")))) arg)
      (.num ⟨0, 9⟩ 1)
    let env : Env := [("y", .num 2)]
    let env' : Env := [("x", .num 9), ("y", .num 2)]
    e.WellFormed ∧ Env.WellFormed env ∧ (∀ x v, env.find? x = some v → env'.find? x = some v) ∧
      Returns (inEnv? .off · e env) (some (.num 3)) ∧
      Returns (inEnv? .off · e env') (some (.num 3)) := by
  intro arg e env env'
  have he : e.WellFormed := by decide
  have henv : Env.WellFormed env := by
    simpa [env, Env.WellFormed] using Value.WellFormed.num 2
  have hsub : ∀ x v, env.find? x = some v → env'.find? x = some v := by
    intro x v hv
    have hmem : x = "y" ∧ v = .num 2 := by simpa [env] using Bindings.mem_of_find? hv
    obtain ⟨rfl, rfl⟩ := hmem
    rfl
  have hv : Returns (inEnv? .off · e env) (some (.num 3)) := ⟨[], by simp, 9, rfl⟩
  obtain ⟨v', hv', hwiden⟩ := inEnv?_returns_widened he henv hsub hv
  cases hwiden
  exact ⟨he, henv, hsub, hv, hv'⟩

end EffectCalculus
