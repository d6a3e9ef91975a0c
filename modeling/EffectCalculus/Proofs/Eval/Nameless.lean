import EffectCalculus.Proofs.Eval.Failure
import EffectCalculus.Proofs.Value.Form

/-!
# Evaluation sees only nameless forms

Evaluating a term in an environment is evaluating its nameless form, in which the names stand for
the forms of their values. So neither bound names nor positions nor unused bindings have a part in
it, and terms and environments that give the same form evaluate alike.

* `EvalError.failure`, `Outcome.form`: an outcome with names, positions and environments forgotten;
* `Eval.EndsAs`, `inEnv_endsAs`: **evaluation commutes with taking the form**, bound by bound;
* `Akin`, `inEnv?_akin`: two terms whose forms come to the same have both no result, the same number
  or closures, and end together.
-/

namespace EffectCalculus

open Eval

/-! ## Outcomes -/

def EvalError.failure : EvalError → Failure
  | .unbound x _ => .unbound x
  | .notClosure _ _ => .notClosure
  | .notNumbers _ _ _ => .notNumbers
  | .notExpression _ | .notValue _ => .misplaced

namespace Outcome

/-- The outcome with the value as its form and the error as its failure. -/
def form : Outcome EvalError Value → Outcome Failure Nameless
  | .done v => .done v.form
  | .fault err => .fault err.failure
  | .unfinished => .unfinished

/-- No atom has been met: the result is well-formed, and an error is one of evaluation proper. -/
def Proper : Outcome EvalError Value → Prop
  | .done v => v.WellFormed
  | .fault err => err.pos?.isSome = true
  | .unfinished => True

theorem form_eq_unfinished {out : Outcome EvalError Value} :
    out.form = .unfinished ↔ out = .unfinished := by
  cases out <;> simp [form]

end Outcome

/-! ## In step -/

namespace Eval

/-- Whatever stands in the log, `m` ends properly, with `out` as the form of its outcome. -/
def EndsAs (m : Eval Value) (out : Outcome Failure Nameless) : Prop :=
  ∃ o notes, m.Ends o notes ∧ o.form = out ∧ o.Proper

namespace EndsAs

variable {m : Eval Value} {k : Value → Eval Value} {out : Outcome Failure Nameless}

theorem pure {v : Value} (hv : v.WellFormed) : EndsAs (Pure.pure v) (.done v.form) :=
  ⟨_, _, ends_pure v, rfl, hv⟩

theorem fault {err : EvalError} (h : err.pos?.isSome = true) :
    EndsAs (Run.fault err) (.fault err.failure) :=
  ⟨_, _, ends_fault err, rfl, h⟩

theorem unfinished : EndsAs Run.unfinished .unfinished :=
  ⟨_, _, ends_unfinished, rfl, trivial⟩

theorem bind (hm : m.EndsAs out) {k' : Nameless → Outcome Failure Nameless}
    (hk : ∀ v, v.WellFormed → (k v).EndsAs (k' v.form)) : EndsAs (m >>= k) (out.andThen k') := by
  obtain ⟨o, notes, h, rfl, hp⟩ := hm
  cases o with
  | done v =>
    obtain ⟨o', notes', h', hform, hp'⟩ := hk v hp
    exact ⟨o', _, h.bind_done h', hform, hp'⟩
  | fault err => exact ⟨_, notes, h.bind_fault k, rfl, hp⟩
  | unfinished => exact ⟨_, notes, h.bind_unfinished k, rfl, hp⟩

theorem visit (w : Watch) {e : Term} (he : e.WellFormed) (hm : m.EndsAs out) :
    EndsAs (w.visit .environment e >>= fun _ => m) out := by
  obtain ⟨o, notes, h, hform, hp⟩ := hm
  exact ⟨o, _, (w.visit_of_wellFormed he .environment).bind_done h, hform, hp⟩

end EndsAs

end Eval

/-- **Evaluation commutes with taking the form.** -/
theorem inEnv_endsAs (w : Watch) (n : Nat) {e : Term} (he : e.WellFormed) {env : Env}
    (henv : Env.WellFormed env) :
    (inEnv w n e env).EndsAs ((e.read (Env.reading env)).eval n) := by
  induction n generalizing e env with
  | zero => exact EndsAs.unfinished
  | succ n ih =>
    unfold inEnv
    refine EndsAs.visit w he ?_
    cases e with
    | var pos x =>
      cases hx : env.find? x with
      | some v =>
        have hv := henv.find? hx
        have heval : ((Term.var pos x).read (Env.reading env)).eval (n + 1) = .done v.form := by
          rw [Term.read, Env.reading_of_find? hx]
          cases hv <;> rfl
        simp only [hx]
        rw [heval]
        exact EndsAs.pure hv
      | none =>
        simp only [hx, Term.read, Env.reading_of_unbound hx]
        exact EndsAs.fault rfl
    | abs pos x b => exact EndsAs.pure (.closure henv he)
    | num pos k => exact EndsAs.pure (.num k)
    | atom => exact he.elim
    | app pos f a =>
      refine (ih he.1 henv).bind fun callee hcallee => ?_
      cases hcallee with
      | num k => exact EndsAs.fault rfl
      | @closure inner x b hinner hb =>
        refine (ih he.2 henv).bind fun v hv => ?_
        -- The body is entered by extending the environment, and its form by filling an index.
        have hbody : (b.read ((Env.reading inner).under x)).instantiate 0 v.form =
            b.read (Env.reading (inner.extend x v)) := by
          rw [Term.read_instantiate hv.form_shift, Env.reading_extend]
        have hentered := ih hb (Env.WellFormed.extend hinner x hv)
        rw [← hbody] at hentered
        exact hentered
    | add pos l r =>
      refine (ih he.1 henv).bind fun u hu => (ih he.2 henv).bind fun v hv => ?_
      cases hu with
      | num i =>
        cases hv with
        | num j => exact EndsAs.pure (.num (i + j))
        | closure => exact EndsAs.fault rfl
      | closure => exact EndsAs.fault rfl

/-! ## Terms with the same form -/

/-- Optional results that differ at most in what a closure holds. -/
inductive Akin : Option Value → Option Value → Prop
  | nothing : Akin none none
  | num (n : Int) : Akin (some (.num n)) (some (.num n))
  | closures (env env' : Env) (x x' : String) (b b' : Term) :
    Akin (some (.closure env x b)) (some (.closure env' x' b'))

/-- Outcomes with one form are akin once failures are missing results. -/
theorem akin_of_form_eq {out out' : Outcome EvalError Value} (hout : out ≠ .unfinished)
    (hp : out.Proper) (hp' : out'.Proper) (h : out.form = out'.form) :
    ∃ a b, out.optional = .done a ∧ out'.optional = .done b ∧ Akin a b := by
  cases out with
  | unfinished => exact absurd rfl hout
  | done v =>
    cases out' with
    | fault | unfinished => cases h
    | done v' =>
      refine ⟨some v, some v', rfl, rfl, ?_⟩
      have hform : v.form = v'.form := Outcome.done.inj h
      have hv : v.WellFormed := hp
      have hv' : v'.WellFormed := hp'
      cases hv with
      | num n =>
        cases hv' with
        | num n' =>
          cases hform
          exact .num n
        | closure => cases hform
      | closure =>
        cases hv' with
        | num => cases hform
        | closure => exact .closures _ _ _ _ _ _
  | fault err =>
    cases out' with
    | done | unfinished => cases h
    | fault err' =>
      exact ⟨none, none, Outcome.optional_fault hp, Outcome.optional_fault hp', .nothing⟩

section Akin

variable {e e' : Term} {env env' : Env} (he : e.WellFormed) (he' : e'.WellFormed)
  (henv : Env.WellFormed env) (henv' : Env.WellFormed env')

include he he' henv henv'

/-- Where the form of one term comes to an end, and that of another comes to the same, the outcomes
of the two have one form. -/
theorem inEnv_settles_form
    (h : ∀ n, ∃ n', (e'.read (Env.reading env')).eval n' = (e.read (Env.reading env)).eval n)
    (w : Watch) {out : Outcome EvalError Value} {log : List Note}
    (hs : Settles (inEnv w · e env) out log) :
    ∃ out' log', Settles (inEnv w · e' env') out' log' ∧ out.form = out'.form ∧ out.Proper ∧
      out'.Proper := by
  obtain ⟨hout, n, hn⟩ := hs
  obtain ⟨n', hn'⟩ := h n
  obtain ⟨out₁, notes, hends, hform, hp⟩ := inEnv_endsAs w n he henv
  obtain ⟨out', notes', hends', hform', hp'⟩ := inEnv_endsAs w n' he' henv'
  obtain ⟨rfl, rfl⟩ := Prod.mk.inj (hends.eq.symm.trans hn)
  have hsame : out₁.form = out'.form := by rw [hform, hform', hn']
  have hout' : out' ≠ .unfinished := by
    intro hu
    apply hout
    rw [← Outcome.form_eq_unfinished, hsame, hu]
    rfl
  exact ⟨out', notes', ⟨hout', n', hends'.eq⟩, hsame, hp, hp'⟩

/-- The optional evaluator then ends alike. -/
theorem inEnv?_settles_akin
    (h : ∀ n, ∃ n', (e'.read (Env.reading env')).eval n' = (e.read (Env.reading env)).eval n)
    (w : Watch) {out : Outcome EvalError (Option Value)} {log : List Note}
    (hs : Settles (inEnv? w · e env) out log) :
    ∃ out' log' a b, Settles (inEnv? w · e' env') out' log' ∧ out = .done a ∧ out' = .done b ∧
      Akin a b := by
  obtain ⟨o, log₁, ho, rfl, -⟩ := (inEnv?_settles_iff w e env out log).mp hs
  obtain ⟨o', log', ho', hsame, hp, hp'⟩ := inEnv_settles_form he he' henv henv' h w ho
  obtain ⟨a, b, ha, hb, hab⟩ := akin_of_form_eq ho.1 hp hp' hsame
  have hsettles? := (inEnv?_settles_iff w e' env' _ _).mpr ⟨o', log', ho', rfl, rfl⟩
  exact ⟨o'.optional, _, a, b, hsettles?, ha, hb, hab⟩

/-- Two terms whose forms come to the same end together, and alike. -/
theorem inEnv?_akin
    (h : ∀ n, ∃ n', (e'.read (Env.reading env')).eval n' = (e.read (Env.reading env)).eval n)
    (h' : ∀ n, ∃ n', (e.read (Env.reading env)).eval n' = (e'.read (Env.reading env')).eval n)
    (w : Watch) :
    (Halts (inEnv? w · e env) ↔ Halts (inEnv? w · e' env')) ∧
    ∀ out log out' log', Settles (inEnv? w · e env) out log →
      Settles (inEnv? w · e' env') out' log' →
      ∃ a b, out = .done a ∧ out' = .done b ∧ Akin a b := by
  refine ⟨⟨?_, ?_⟩, ?_⟩
  · rintro ⟨out, log, hs⟩
    obtain ⟨out', log', -, -, hs', -⟩ := inEnv?_settles_akin he he' henv henv' h w hs
    exact ⟨out', log', hs'⟩
  · rintro ⟨out, log, hs⟩
    obtain ⟨out', log', -, -, hs', -⟩ := inEnv?_settles_akin he' he henv' henv h' w hs
    exact ⟨out', log', hs'⟩
  · intro out log out' log' hs hs'
    obtain ⟨out₁, log₁, a, b, hs₁, ha, hb, hab⟩ := inEnv?_settles_akin he he' henv henv' h w hs
    obtain ⟨rfl, -⟩ := Run.settles_unique (fun _ _ => inEnv?_below w e' env') hs' hs₁
    exact ⟨a, b, ha, hb, hab⟩

end Akin

end EffectCalculus
