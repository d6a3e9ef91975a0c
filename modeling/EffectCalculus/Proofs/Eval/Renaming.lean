import EffectCalculus.Proofs.Eval.Nameless
import EffectCalculus.Proofs.Term.Alpha
import EffectCalculus.Proofs.Value.Show

/-!
# Evaluation does not see bound names

An environment is keyed by the very names that a renaming changes, and a renamed parameter may be
bound in it already. Readings settle the matter: terms that are equal up to renaming have one
reading in every environment, so they evaluate alike.

* `evaluate_settles_iff`: noting its value at the end does not change how an evaluation ends;
* `evaluate_raises_of_read`: terms with one reading raise errors of one class;
* `inEnv_alpha`: **renaming bound variables changes no outcome**.
-/

namespace EffectCalculus

open Eval Term

/-! ## Whole programs -/

/-- A well-formed value can be worded, so noting it does not fail. -/
theorem ends_noteWorded_result (w : Watch) {v : Value} (hv : v.WellFormed) :
    (w.noteWorded (.result v)).Ends (.done ()) (w.kept [.result v]) := by
  obtain ⟨s, hs⟩ := hv.exists_render
  simpa [Watch.noteWorded, Note.message, hs, bind, Except.bind, pure, Except.pure] using
    ends_note w (.result v)

theorem evaluate_ends {w : Watch} {n : Nat} {e : Term} {env : Env} {out : Outcome EvalError Value}
    {notes : List Note} (h : (inEnv w n e env).Ends out notes) (hp : out.Proper) :
    ∃ notes', (evaluate w n e env).Ends out notes' := by
  cases out with
  | fault err => exact ⟨notes, h.bind_fault _⟩
  | unfinished => exact ⟨notes, h.bind_unfinished _⟩
  | done v =>
    have hlast : ∃ notes', Ends (do
        if w.verbose then w.noteWorded (.result v)
        return v) (.done v) notes' := by
      cases hw : w.verbose with
      | false => exact ⟨_, ends_pure v⟩
      | true => exact ⟨_, (ends_noteWorded_result w hp).bind_done (ends_pure v)⟩
    obtain ⟨notes', hnotes'⟩ := hlast
    exact ⟨_, h.bind_done hnotes'⟩

theorem evaluate_settles_iff {e : Term} (he : e.WellFormed) {env : Env} (henv : Env.WellFormed env)
    (w : Watch) (out : Outcome EvalError Value) :
    (∃ log, Settles (evaluate w · e env) out log) ↔ ∃ log, Settles (inEnv w · e env) out log := by
  constructor
  · rintro ⟨log, hout, n, hn⟩
    obtain ⟨out', notes, hends, -, hp⟩ := inEnv_endsAs w n he henv
    obtain ⟨notes', hends'⟩ := evaluate_ends hends hp
    obtain ⟨rfl, rfl⟩ := Prod.mk.inj (hends'.eq.symm.trans hn)
    exact ⟨notes, hout, n, hends.eq⟩
  · rintro ⟨log, hout, n, hn⟩
    obtain ⟨out', notes, hends, -, hp⟩ := inEnv_endsAs w n he henv
    obtain ⟨notes', hends'⟩ := evaluate_ends hends hp
    obtain ⟨rfl, rfl⟩ := Prod.mk.inj (hends.eq.symm.trans hn)
    exact ⟨notes', hout, n, hends'.eq⟩

/-- Terms with one reading raise errors of one class, and only errors of evaluation proper. -/
theorem evaluate_raises_of_read {e e' : Term} (he : e.WellFormed) (he' : e'.WellFormed) {env : Env}
    (henv : Env.WellFormed env) (h : e.read (Env.reading env) = e'.read (Env.reading env))
    {w : Watch} {err : EvalError} (hraises : Raises (evaluate w · e env) err) :
    err.pos?.isSome = true ∧
      ∃ err', Raises (evaluate w · e' env) err' ∧ err'.failure = err.failure := by
  obtain ⟨log, hs⟩ := (evaluate_settles_iff he henv w _).mp hraises
  obtain ⟨out', log', hs', hform, hp, -⟩ :=
    inEnv_settles_form he he' henv henv (fun n => ⟨n, by rw [h]⟩) w hs
  refine ⟨hp, ?_⟩
  cases out' with
  | done | unfinished => cases hform
  | fault err' =>
    exact ⟨err', (evaluate_settles_iff he' henv w _).mpr ⟨log', hs'⟩,
      (Outcome.fault.inj hform).symm⟩

/-! ## Renaming -/

/-- **Renaming bound variables changes no outcome.** The optional evaluator ends on both terms or on
neither, without a result, with the same number or with closures; where the fatal one raises an
error on one term, it raises one of the same class on the other, about the same name if a variable
is unbound. -/
theorem inEnv_alpha {e e' : Term} (he : e.WellFormed) (he' : e'.WellFormed) (h : e.Alpha e')
    {env : Env} (henv : Env.WellFormed env) (w : Watch) :
    (Halts (inEnv? w · e env) ↔ Halts (inEnv? w · e' env)) ∧
    (∀ out log out' log', Settles (inEnv? w · e env) out log →
      Settles (inEnv? w · e' env) out' log' →
      ∃ a b, out = .done a ∧ out' = .done b ∧ Akin a b) ∧
    (∀ err, Raises (evaluate w · e env) err → err.pos?.isSome = true ∧
      ∃ err', Raises (evaluate w · e' env) err' ∧ err'.failure = err.failure) ∧
    (∀ err', Raises (evaluate w · e' env) err' → err'.pos?.isSome = true ∧
      ∃ err, Raises (evaluate w · e env) err ∧ err.failure = err'.failure) := by
  have hread := h.read (Env.reading env)
  obtain ⟨hhalts, hakin⟩ := inEnv?_akin he he' henv henv (fun n => ⟨n, by rw [hread]⟩)
    (fun n => ⟨n, by rw [hread]⟩) w
  refine ⟨hhalts, hakin, fun err hraises => ?_, fun err' hraises => ?_⟩
  · exact evaluate_raises_of_read he he' henv hread hraises
  · exact evaluate_raises_of_read he' he henv hread.symm hraises

/-- The parameters `x` and `y` become `y` and `b`, of which `b` is bound outside. Both terms give 8
where `a` is 5, and both miss `a` where nothing is bound. -/
theorem inEnv_alpha_shadowing :
    let e : Term := .app ⟨0, 0⟩ (.app ⟨0, 1⟩ (.abs ⟨0, 2⟩ "x" (.abs ⟨0, 3⟩ "y" (.add ⟨0, 4⟩
      (.var ⟨0, 5⟩ "x") (.add ⟨0, 6⟩ (.var ⟨0, 7⟩ "y") (.var ⟨0, 8⟩ "a"))))) (.num ⟨0, 9⟩ 1))
      (.num ⟨0, 10⟩ 2)
    let e' : Term := .app ⟨1, 0⟩ (.app ⟨1, 1⟩ (.abs ⟨1, 2⟩ "y" (.abs ⟨1, 3⟩ "b" (.add ⟨1, 4⟩
      (.var ⟨1, 5⟩ "y") (.add ⟨1, 6⟩ (.var ⟨1, 7⟩ "b") (.var ⟨1, 8⟩ "a"))))) (.num ⟨1, 9⟩ 1))
      (.num ⟨1, 10⟩ 2)
    let env : Env := [("a", .num 5), ("b", .num 7)]
    e.WellFormed ∧ e'.WellFormed ∧ e.Alpha e' ∧ Env.WellFormed env ∧
      Returns (inEnv? .off · e' env) (some (.num 8)) ∧
      ∃ err, Raises (evaluate .off · e' []) err ∧ err.failure = .unbound "a" := by
  intro e e' env
  have he : e.WellFormed := by decide
  have he' : e'.WellFormed := by decide
  have halpha : e.Alpha e' := by decide
  have henv : Env.WellFormed env := by
    simpa [env, Env.WellFormed] using ⟨Value.WellFormed.num 5, Value.WellFormed.num 7⟩
  have hempty : Env.WellFormed [] := fun p hp => by cases hp
  have hs : Settles (inEnv? .off · e env) (.done (some (.num 8))) [] := ⟨by simp, 7, rfl⟩
  have hraises : Raises (evaluate .off · e []) (.unbound "a" ⟨0, 8⟩) := ⟨[], by simp, 7, rfl⟩
  obtain ⟨hhalts, hakin, -⟩ := inEnv_alpha he he' halpha henv .off
  obtain ⟨out, log, hs'⟩ := hhalts.mp ⟨_, _, hs⟩
  obtain ⟨a, b, ha, rfl, hab⟩ := hakin _ _ _ _ hs hs'
  cases ha
  cases hab
  obtain ⟨-, hfail⟩ := (inEnv_alpha he he' halpha hempty .off).2.2.1 _ hraises
  exact ⟨he, he', halpha, henv, ⟨log, hs'⟩, hfail⟩

end EffectCalculus
