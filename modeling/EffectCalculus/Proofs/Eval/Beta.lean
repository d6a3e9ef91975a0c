import EffectCalculus.Proofs.Eval.Nameless
import EffectCalculus.Proofs.Term.Avoiding

/-!
# The beta law

Applying an abstraction to a number or an abstraction evaluates like the body with the argument
substituted for the parameter, in every environment. Both may be open: a name of the argument keeps
the meaning that it has outside the body, because the substitution renames the binders in its way.

* `Nameless.eval_beta`: an application of nameless forms takes one step more than what it becomes;
* `inEnv?_beta`: **the law for evaluation in an environment**.
-/

namespace EffectCalculus

open Eval Term

open Function (update)

/-- A number or an abstraction: what evaluates to itself. -/
def Term.IsValue : Term → Prop
  | .num _ _ | .abs _ _ _ => True
  | _ => False

theorem Term.IsValue.eval_read {r : Term} (h : r.IsValue) (φ : Reading) (n : Nat) :
    (r.read φ).eval (n + 1) = .done (r.read φ) := by
  cases r with
  | num | abs => rfl
  | var | app | add | atom => exact h.elim

theorem Nameless.eval_beta {s : Nameless} {n : Nat} (hs : s.eval (n + 1) = .done s)
    (b : Nameless) : (Nameless.app (.abs b) s).eval (n + 2) = (b.instantiate 0 s).eval (n + 1) := by
  change (s.eval (n + 1)).andThen (fun s => (b.instantiate 0 s).eval (n + 1)) = _
  rw [hs]
  rfl

/-- The form of an application, once the parameter is filled, is the form of the substituted body. -/
theorem Term.Avoids.read_instantiate {x : String} {r e t : Term} (h : Avoids x r e t)
    (hr : r.WellFormed) (he : e.WellFormed) {env : Env} (henv : Env.WellFormed env) :
    (e.read ((Env.reading env).under x)).instantiate 0 (r.read (Env.reading env)) =
      t.read (Env.reading env) := by
  have hshift : ∀ c, (r.read (Env.reading env)).shift c = r.read (Env.reading env) := by
    intro c
    rw [← read_shift]
    congr 1
    funext z
    exact Env.reading_shift (fun p hp c => (henv p hp).form_shift c) z c
  rw [Term.read_instantiate hshift, h.read hr he]

/-- **The beta law.** The application and the substituted body end together; neither has a result,
or both have the same number, or both a closure. -/
theorem inEnv?_beta (x : String) (p q : Pos) {e r : Term} (he : e.WellFormed)
    (hr : r.WellFormed) (hvalue : r.IsValue) {env : Env} (henv : Env.WellFormed env) :
    ∃ t, substAvoiding x r e = .ok t ∧ ∀ w : Watch,
      (Halts (inEnv? w · (.app p (.abs q x e) r) env) ↔ Halts (inEnv? w · t env)) ∧
      ∀ out log out' log', Settles (inEnv? w · (.app p (.abs q x e) r) env) out log →
        Settles (inEnv? w · t env) out' log' →
        ∃ a b, out = .done a ∧ out' = .done b ∧ Akin a b := by
  obtain ⟨t, ht, ha⟩ := exists_avoids x hr he
  have hstep : ∀ n, ((Term.app p (.abs q x e) r).read (Env.reading env)).eval (n + 2) =
      (t.read (Env.reading env)).eval (n + 1) := by
    intro n
    rw [← ha.read_instantiate hr he henv]
    exact Nameless.eval_beta (hvalue.eval_read (Env.reading env) n) _
  have happ : (Term.app p (.abs q x e) r).WellFormed := ⟨he, hr⟩
  refine ⟨t, ht, fun w => inEnv?_akin happ (ha.wellFormed hr he) henv henv ?_ ?_ w⟩
  · intro n
    match n with
    | 0 | 1 => exact ⟨0, rfl⟩
    | n + 2 => exact ⟨n + 1, (hstep n).symm⟩
  · intro n
    match n with
    | 0 => exact ⟨0, rfl⟩
    | n + 1 => exact ⟨n + 2, hstep n⟩

/-- The argument mentions a name that the body binds: `y` is 5 outside, and the body binds it to 1.
The substitution renames the binder, and both sides give 5. -/
theorem inEnv?_beta_capture :
    let r : Term := .abs ⟨0, 1⟩ "z" (.var ⟨0, 2⟩ "y")
    let e : Term := .app ⟨0, 3⟩ (.abs ⟨0, 4⟩ "y" (.app ⟨0, 5⟩ (.var ⟨0, 6⟩ "x") (.var ⟨0, 7⟩ "y")))
      (.num ⟨0, 8⟩ 1)
    let env : Env := [("y", .num 5)]
    e.WellFormed ∧ r.WellFormed ∧ r.IsValue ∧ Env.WellFormed env ∧
      ∃ t, substAvoiding "x" r e = .ok t ∧
        Returns (inEnv? .off · (.app ⟨0, 0⟩ (.abs ⟨0, 0⟩ "x" e) r) env) (some (.num 5)) ∧
        Returns (inEnv? .off · t env) (some (.num 5)) := by
  intro r e env
  have he : e.WellFormed := by decide
  have hr : r.WellFormed := by decide
  have henv : Env.WellFormed env := by
    intro p hp
    obtain rfl := List.mem_singleton.mp hp
    exact .num 5
  obtain ⟨t, ht, h⟩ := inEnv?_beta "x" ⟨0, 0⟩ ⟨0, 0⟩ he hr trivial henv
  have hs : Settles (inEnv? .off · (.app ⟨0, 0⟩ (.abs ⟨0, 0⟩ "x" e) r) env)
      (.done (some (.num 5))) [] := ⟨by simp, 6, rfl⟩
  obtain ⟨out, log, hs'⟩ := (h .off).1.mp ⟨_, _, hs⟩
  obtain ⟨a, b, ha, rfl, hab⟩ := (h .off).2 _ _ _ _ hs hs'
  cases ha
  cases hab
  exact ⟨he, hr, trivial, henv, t, ht, ⟨_, hs⟩, ⟨log, hs'⟩⟩

end EffectCalculus
