import EffectCalculus.Proofs.Eval.Log
import EffectCalculus.Proofs.Run.Keeps
import EffectCalculus.Proofs.Value.Readback

/-!
# Evaluation stays in scope

A closure keeps its environment and may be applied long after the scope in which it was made is
left. If every closure binds what its body mentions, evaluation makes no other closures, so it never
looks for a name in vain.

* `EvalError.InScope`: the two failures that remain, with the values that they report in scope;
* `Run.Keeps.visit`: beginning with a term without atoms goes on;
* `inEnv_keeps_inScope`: **evaluation stays in scope**, by induction on the bound: the body of a
  closure is evaluated in an environment that binds its free variables again;
* `inEnv_never_unbound`: what this excludes.
-/

namespace EffectCalculus

open Run

/-- Something other than a closure is applied, or two values are added that are not both numbers,
and the values that the error carries are well-scoped. -/
def EvalError.InScope : EvalError → Prop
  | .notClosure v _ => v.WellScoped
  | .notNumbers u v _ => u.WellScoped ∧ v.WellScoped
  | .unbound _ _ | .notExpression _ | .notValue _ => False

/-- Beginning with a term without atoms has no part in how an evaluation ends. -/
theorem Run.Keeps.visit {α : Type} {A : EvalError → Prop} {Q : α → Prop} {m : Eval α} (w : Watch)
    (who : Evaluator) {e : Term} (he : e.WellFormed) (h : m.Keeps A Q) :
    (w.visit who e >>= fun _ => m).Keeps A Q := by
  intro log log'
  rw [Run.bind_done (w.visit_of_wellFormed he who log)]
  exact h _ log'

/-- **Evaluation stays in scope.** -/
theorem inEnv_keeps_inScope (w : Watch) (n : Nat) {e : Term} {env : Env} (he : e.WellFormed)
    (henv : Env.WellScoped env) (scope : ∀ x, e.IsFree x → x ∈ env.names) :
    (inEnv w n e env).Keeps EvalError.InScope Value.WellScoped := by
  induction n generalizing e env with
  | zero => exact Keeps.unfinished
  | succ n ih =>
    unfold inEnv
    refine Keeps.visit w .environment he ?_
    cases e with
    | var pos x =>
      obtain ⟨v, hv⟩ := Bindings.exists_find? (scope x (Term.isFree_var.mpr rfl))
      simp only [hv]
      exact Keeps.pure (henv.find? hv)
    | num pos k => exact Keeps.pure (.num k)
    | atom => exact he.elim
    | abs pos x b =>
      refine Keeps.pure (.closure henv he fun y hy => ?_)
      by_cases hyx : y = x
      · exact .inl hyx
      · exact .inr (scope y (Term.isFree_abs.mpr ⟨hy, hyx⟩))
    | app pos f a =>
      have hf := ih he.1 henv fun x hx => scope x ((Term.isFree_app he.1 he.2).mpr (.inl hx))
      have ha := ih he.2 henv fun x hx => scope x ((Term.isFree_app he.1 he.2).mpr (.inr hx))
      refine hf.bind fun callee hcallee => ?_
      cases hcallee with
      | num k => exact Keeps.fault (Value.WellScoped.num k)
      | closure bindings body inner =>
        refine ha.bind fun v hv => ?_
        apply ih body (Env.WellScoped.extend bindings _ hv)
        exact fun y hy => Bindings.mem_names_extend (inner y hy)
    | add pos l r =>
      have hl := ih he.1 henv fun x hx => scope x ((Term.isFree_add he.1 he.2).mpr (.inl hx))
      have hr := ih he.2 henv fun x hx => scope x ((Term.isFree_add he.1 he.2).mpr (.inr hx))
      refine hl.bind fun u hu => hr.bind fun v hv => ?_
      cases u with
      | atom => cases hu
      | closure => exact Keeps.fault ⟨hu, hv⟩
      | num i =>
        cases v with
        | atom => cases hv
        | closure => exact Keeps.fault ⟨hu, hv⟩
        | num j => exact Keeps.pure (.num (i + j))

/-- **Well-scoped programs never look for a name in vain.** In an environment of well-scoped values
that binds what the term mentions, whatever is watched and however far evaluation gets, a result is
well-scoped. The only failures are to apply something other than a closure and to add values that
are not both numbers, and the values that these errors carry are well-scoped. -/
theorem inEnv_never_unbound {e : Term} {env : Env} (he : e.WellFormed)
    (henv : Env.WellScoped env) (scope : ∀ x, e.IsFree x → x ∈ env.names) (w : Watch) (n : Nat)
    (log log' : List Note) :
    (∀ v, inEnv w n e env log = (.done v, log') → v.WellScoped) ∧
    ∀ err, inEnv w n e env log = (.fault err, log') →
      (∃ v pos, err = .notClosure v pos ∧ v.WellScoped) ∨
        ∃ u v pos, err = .notNumbers u v pos ∧ u.WellScoped ∧ v.WellScoped := by
  obtain ⟨hfault, hdone⟩ := inEnv_keeps_inScope w n he henv scope log log'
  refine ⟨hdone, fun err herr => ?_⟩
  have hscope := hfault err herr
  cases err with
  | unbound | notExpression | notValue => exact hscope.elim
  | notClosure v pos => exact .inl ⟨v, pos, rfl, hscope⟩
  | notNumbers u v pos => exact .inr ⟨u, v, pos, rfl, hscope⟩

/-- Applying `f` gives a closure over `y`, which is bound only where `f` was made; outside of that
scope the closure is added to a number. -/
theorem inEnv_never_unbound_escaped :
    let f : Value := .closure [("y", .num 2)] "x" (.abs ⟨0, 1⟩ "z"
      (.add ⟨0, 2⟩ (.var ⟨0, 3⟩ "x") (.var ⟨0, 4⟩ "y")))
    let e : Term := .add ⟨1, 0⟩ (.app ⟨1, 1⟩ (.var ⟨1, 2⟩ "f") (.num ⟨1, 3⟩ 1)) (.num ⟨1, 4⟩ 5)
    let escaped : Value := .closure [("y", .num 2), ("x", .num 1)] "z"
      (.add ⟨0, 2⟩ (.var ⟨0, 3⟩ "x") (.var ⟨0, 4⟩ "y"))
    e.WellFormed ∧ Env.WellScoped [("f", f)] ∧ (∀ x, e.IsFree x → x ∈ Bindings.names [("f", f)]) ∧
      inEnv .off 9 e [("f", f)] [] = (.fault (.notNumbers escaped (.num 5) ⟨1, 0⟩), []) ∧
      escaped.WellScoped := by
  intro f e escaped
  have he : e.WellFormed := by decide
  have hf : f.WellScoped := by
    refine .closure (by simpa using Value.WellScoped.num 2) (by decide) fun y hy => ?_
    have hmem := (Term.isFree_iff_mem (rfl : Term.free _ = .ok ["x", "y"])).mp hy
    simpa [Bindings.names] using hmem
  have henv : Env.WellScoped [("f", f)] := by simpa [Env.WellScoped] using hf
  have scope : ∀ x, e.IsFree x → x ∈ Bindings.names [("f", f)] := by
    intro x hx
    have hmem := (Term.isFree_iff_mem (rfl : e.free = .ok ["f"])).mp hx
    simpa [Bindings.names] using hmem
  have hrun : inEnv .off 9 e [("f", f)] [] = (.fault (.notNumbers escaped (.num 5) ⟨1, 0⟩), []) :=
    rfl
  obtain ⟨v, pos, h, -⟩ | ⟨u, v, pos, h, hu, -⟩ :=
    (inEnv_never_unbound he henv scope .off 9 [] []).2 _ hrun
  · cases h
  · cases h
    exact ⟨he, henv, scope, hrun, hu⟩

end EffectCalculus
