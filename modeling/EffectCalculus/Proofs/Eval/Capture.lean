import EffectCalculus.Proofs.Eval.Success
import EffectCalculus.Proofs.Term.Scope

/-!
# Open programs

Plain substitution may capture: a variable that is bound nowhere in the program can come to stand
under a binder of its name, and is then replaced when that binder is applied. So on open programs
the two ways to evaluate part. But whoever evaluates in environments fails at such a variable; as
long as this does not happen, it does not matter what has taken its place.

* `Standing`, `Scope`: what the names of a program stand for;
* `Mirrors`: a term is another with its values put in, and with anything at all in the place of the
  variables that are bound nowhere;
* `Mirrors.subst_loose`: **a substitution that captures keeps this**, since it only changes what
  may be anything;
* `Mirrors.subst_parameter`: putting in an argument is binding the parameter to it;
* `inEnv?_leads_bySubstitution`: **wherever evaluation in an environment has a result, evaluation by
  substitution has it too**;
* `bySubstitution_returns_open`: the same for whole programs, closed or open.
-/

namespace EffectCalculus

open Eval Term
open Function (update update_self update_of_ne update_comm update_idem)

/-! ## What names stand for -/

/-- What a name stands for. -/
inductive Standing
  /-- It is the parameter of a binder around it, and the variable still stands there. -/
  | parameter
  /-- It has a value, which stands in its place. -/
  | value (v : Value)
  /-- It is bound nowhere, and may have been captured. -/
  | loose

abbrev Scope := String → Standing

/-- What names stand for in an environment. -/
def Env.scope (env : Env) : Scope := fun x =>
  match env.find? x with
  | some v => .value v
  | none => .loose

theorem Env.scope_extend (env : Env) (x : String) (v : Value) :
    Env.scope (env.extend x v) = update (Env.scope env) x (.value v) := by
  funext y
  by_cases hy : y = x
  · subst hy
    simp [Env.scope, Bindings.find?_extend_self]
  · simp [Env.scope, Bindings.find?_extend_of_ne env v hy, update_of_ne hy]

/-- The second term is the first with what its names stand for put in. Where a name is loose,
anything may stand. -/
inductive Mirrors : Scope → Term → Term → Prop
  | parameter {ρ : Scope} {x : String} (p q : Pos) (hx : ρ x = .parameter) :
      Mirrors ρ (.var p x) (.var q x)
  | number {ρ : Scope} {x : String} {k : Int} (p q : Pos) (hx : ρ x = .value (.num k)) :
      Mirrors ρ (.var p x) (.num q k)
  | closure {ρ : Scope} {x y : String} {env : Env} {b c : Term} (p q : Pos)
      (hx : ρ x = .value (.closure env y b))
      (body : Mirrors (update (Env.scope env) y .parameter) b c) :
      Mirrors ρ (.var p x) (.abs q y c)
  | loose {ρ : Scope} {x : String} (p : Pos) (hx : ρ x = .loose) (t : Term) :
      Mirrors ρ (.var p x) t
  | num (ρ : Scope) (p q : Pos) (k : Int) : Mirrors ρ (.num p k) (.num q k)
  | app {ρ : Scope} {f a f' a' : Term} (p q : Pos) (fn : Mirrors ρ f f') (arg : Mirrors ρ a a') :
      Mirrors ρ (.app p f a) (.app q f' a')
  | add {ρ : Scope} {l r l' r' : Term} (p q : Pos) (left : Mirrors ρ l l')
      (right : Mirrors ρ r r') : Mirrors ρ (.add p l r) (.add q l' r')
  | abs {ρ : Scope} {x : String} {b c : Term} (p q : Pos)
      (body : Mirrors (update ρ x .parameter) b c) : Mirrors ρ (.abs p x b) (.abs q x c)

/-- The term is the value, with anything in the place of its loose variables. -/
inductive Value.MirroredBy : Value → Term → Prop
  | num (k : Int) (q : Pos) : MirroredBy (.num k) (.num q k)
  | closure {env : Env} {x : String} {b c : Term} (q : Pos)
      (body : Mirrors (update (Env.scope env) x .parameter) b c) :
      MirroredBy (.closure env x b) (.abs q x c)

/-- A variable that has a value stands for a term of this value. -/
theorem mirrors_var_iff {ρ : Scope} {p : Pos} {x : String} {v : Value} {t : Term}
    (hx : ρ x = .value v) : Mirrors ρ (.var p x) t ↔ v.MirroredBy t := by
  constructor
  · intro h
    cases h with
    | parameter _ _ hx' => cases hx.symm.trans hx'
    | number _ q hx' =>
      cases hx.symm.trans hx'
      exact .num _ q
    | closure _ q hx' body =>
      cases hx.symm.trans hx'
      exact .closure q body
    | loose _ hx' => cases hx.symm.trans hx'
  · intro h
    cases h with
    | num k q => exact .number p q hx
    | closure q body => exact .closure p q hx body

/-- A program of which nothing has been evaluated mirrors itself. -/
theorem mirrors_self {ρ : Scope} (hρ : ∀ x v, ρ x ≠ .value v) {e : Term} (he : e.WellFormed) :
    Mirrors ρ e e := by
  induction e generalizing ρ with
  | var pos x =>
    cases hx : ρ x with
    | parameter => exact .parameter pos pos hx
    | value v => exact absurd hx (hρ x v)
    | loose => exact .loose pos hx _
  | num pos k => exact .num ρ pos pos k
  | atom => exact he.elim
  | app pos f a ihf iha => exact .app pos pos (ihf hρ he.1) (iha hρ he.2)
  | add pos l r ihl ihr => exact .add pos pos (ihl hρ he.1) (ihr hρ he.2)
  | abs pos x b ih =>
    refine .abs pos pos (ih (fun y v => ?_) he)
    by_cases hy : y = x
    · simp [hy]
    · rw [update_of_ne hy]
      exact hρ y v

/-! ## Substitution -/

theorem Env.scope_ne_parameter (env : Env) (x : String) : Env.scope env x ≠ .parameter := by
  unfold Env.scope
  split <;> simp

/-- A name that is no parameter can only occur where anything may stand, so substituting for it
changes nothing that matters. This is where binders capture. -/
theorem Mirrors.subst_loose {ρ : Scope} {e t : Term} (h : Mirrors ρ e t) (ht : t.WellFormed)
    {y : String} (hy : ρ y ≠ .parameter) {s : Term} (hs : s.WellFormed) :
    ∃ t', subst y s t = .ok t' ∧ t'.WellFormed ∧ Mirrors ρ e t' := by
  induction h with
  | @parameter ρ x p q hx =>
    have hxy : x ≠ y := by
      rintro rfl
      exact hy hx
    exact ⟨.var q x, by simp [subst, hxy], trivial, .parameter p q hx⟩
  | number p q hx => exact ⟨_, rfl, trivial, .number p q hx⟩
  | @closure ρ x z env b c p q hx body ih =>
    by_cases hz : z = y
    · subst hz
      exact ⟨_, subst_abs_self, ht, .closure p q hx body⟩
    · have hbody : update (Env.scope env) z .parameter y ≠ .parameter := by
        rw [update_of_ne (Ne.symm hz)]
        exact env.scope_ne_parameter y
      obtain ⟨c', hc, hc', hmirrors⟩ := ih ht hbody
      exact ⟨_, subst_abs hz hc, hc', .closure p q hx hmirrors⟩
  | @loose ρ x p hx t =>
    obtain ⟨t', ht', hwf⟩ := exists_subst y hs ht
    exact ⟨t', ht', hwf, .loose p hx t'⟩
  | num ρ p q k => exact ⟨_, rfl, trivial, .num ρ p q k⟩
  | app p q _ _ ihf iha =>
    obtain ⟨f', hf, hf', hfn⟩ := ihf ht.1 hy
    obtain ⟨a', ha, ha', harg⟩ := iha ht.2 hy
    exact ⟨_, subst_app hf ha, ⟨hf', ha'⟩, .app p q hfn harg⟩
  | add p q _ _ ihl ihr =>
    obtain ⟨l', hl, hl', hleft⟩ := ihl ht.1 hy
    obtain ⟨r', hr, hr', hright⟩ := ihr ht.2 hy
    exact ⟨_, subst_add hl hr, ⟨hl', hr'⟩, .add p q hleft hright⟩
  | @abs ρ x b c p q body ih =>
    by_cases hx : x = y
    · subst hx
      exact ⟨_, subst_abs_self, ht, .abs p q body⟩
    · obtain ⟨c', hc, hc', hmirrors⟩ := ih ht (by rwa [update_of_ne (Ne.symm hx)])
      exact ⟨_, subst_abs hx hc, hc', .abs p q hmirrors⟩

/-- Putting an argument in the place of a parameter is binding the parameter to its value. -/
theorem Mirrors.subst_parameter {ρ : Scope} {e t : Term} (h : Mirrors ρ e t) (ht : t.WellFormed)
    {x : String} (hx : ρ x = .parameter) {v : Value} {s : Term} (hv : v.MirroredBy s)
    (hs : s.WellFormed) :
    ∃ t', subst x s t = .ok t' ∧ t'.WellFormed ∧ Mirrors (update ρ x (.value v)) e t' := by
  -- Once the parameter has its value, only loose occurrences of its name are left.
  have hbound : ∀ ρ : Scope, update ρ x (.value v) x ≠ .parameter := by simp
  have hother : ∀ {ρ : Scope} {y : String}, y ≠ x → update ρ x (.value v) y = ρ y :=
    fun hyx => update_of_ne hyx _ _
  have hne : ∀ {ρ : Scope} {y : String}, ρ x = .parameter → ρ y ≠ .parameter → y ≠ x := by
    rintro ρ y hx hy rfl
    exact hy hx
  induction h with
  | @parameter ρ y p q hy =>
    by_cases hyx : y = x
    · subst hyx
      exact ⟨s, by simp [subst], hs, (mirrors_var_iff (update_self ..)).mpr hv⟩
    · have hy' := (hother hyx).trans hy
      exact (Mirrors.parameter p q hy').subst_loose ht (hbound ρ) hs
  | @number ρ y k p q hy =>
    have hy' := (hother (hne hx (by simp [hy]))).trans hy
    exact (Mirrors.number p q hy').subst_loose ht (hbound ρ) hs
  | @closure ρ y z env b c p q hy body =>
    have hy' := (hother (hne hx (by simp [hy]))).trans hy
    exact (Mirrors.closure p q hy' body).subst_loose ht (hbound ρ) hs
  | @loose ρ y p hy t =>
    have hy' := (hother (hne hx (by simp [hy]))).trans hy
    exact (Mirrors.loose p hy' t).subst_loose ht (hbound ρ) hs
  | num ρ p q k => exact ⟨_, rfl, trivial, .num _ p q k⟩
  | app p q _ _ ihf iha =>
    obtain ⟨f', hf, hf', hfn⟩ := ihf ht.1 hx
    obtain ⟨a', ha, ha', harg⟩ := iha ht.2 hx
    exact ⟨_, subst_app hf ha, ⟨hf', ha'⟩, .app p q hfn harg⟩
  | add p q _ _ ihl ihr =>
    obtain ⟨l', hl, hl', hleft⟩ := ihl ht.1 hx
    obtain ⟨r', hr, hr', hright⟩ := ihr ht.2 hx
    exact ⟨_, subst_add hl hr, ⟨hl', hr'⟩, .add p q hleft hright⟩
  | @abs ρ y b c p q body ih =>
    by_cases hyx : y = x
    · subst hyx
      refine ⟨_, subst_abs_self, ht, .abs p q ?_⟩
      rwa [update_idem]
    · obtain ⟨c', hc, hc', hmirrors⟩ := ih ht (by rwa [update_of_ne (Ne.symm hyx)])
      refine ⟨_, subst_abs hyx hc, hc', .abs p q ?_⟩
      rwa [update_comm (Ne.symm hyx)]

/-- Entering the body of a closure. -/
theorem Mirrors.enter {env : Env} {x : String} {b c : Term}
    (h : Mirrors (update (Env.scope env) x .parameter) b c) (hc : c.WellFormed) {v : Value}
    {s : Term} (hv : v.MirroredBy s) (hs : s.WellFormed) :
    ∃ t, subst x s c = .ok t ∧ t.WellFormed ∧ Mirrors (Env.scope (env.extend x v)) b t := by
  obtain ⟨t, ht, hwf, hmirrors⟩ := h.subst_parameter hc (update_self ..) hv hs
  rw [update_idem, ← Env.scope_extend] at hmirrors
  exact ⟨t, ht, hwf, hmirrors⟩

/-! ## Evaluation -/

/-- A term of a value evaluates to itself. -/
theorem Value.MirroredBy.bySubstitution_eq {v : Value} {t : Term} (h : v.MirroredBy t) (w : Watch)
    (n : Nat) :
    bySubstitution w (n + 1) t = (w.visit .substitution t >>= fun _ => pure (some t)) := by
  cases h <;> rfl

/-- **Wherever evaluation in an environment has a result, evaluation by substitution has it too.** -/
theorem inEnv?_leads_bySubstitution (w : Watch) (n : Nat) {e t : Term} {env : Env}
    (h : Mirrors (Env.scope env) e t) (ht : t.WellFormed) :
    Leads (fun v u => u.WellFormed ∧ v.MirroredBy u) (inEnv? w n e env)
      (bySubstitution w n t) := by
  induction n generalizing e t env with
  | zero => exact Leads.unfinished _
  | succ n ih =>
    cases e with
    | atom => cases h
    | var pos x =>
      unfold inEnv?
      cases hx : env.find? x with
      | none =>
        -- Here anything may stand on the other side.
        simp only [hx]
        exact (Leads.noted w _ _).begun w .optional _
      | some v =>
        have hscope : Env.scope env x = .value v := by simp [Env.scope, hx]
        have hread := (mirrors_var_iff hscope).mp h
        rw [hread.bySubstitution_eq]
        simp only [hx]
        exact Leads.visit w .optional .substitution _ ht (Leads.pure ⟨ht, hread⟩)
    | num pos k =>
      cases h with
      | num _ _ q _ =>
        exact Leads.visit w .optional .substitution _ ht (Leads.pure ⟨ht, .num k q⟩)
    | abs pos x b =>
      cases h with
      | abs _ q body =>
        exact Leads.visit w .optional .substitution _ ht (Leads.pure ⟨ht, .closure q body⟩)
    | app pos f a =>
      cases h with
      | app _ q fn arg =>
        refine Leads.visit w .optional .substitution _ ht ?_
        refine (ih fn ht.1).andThen fun v u hvu => ?_
        obtain ⟨hu, hvu⟩ := hvu
        cases hvu with
        | num => exact Leads.noted w _ _
        | closure q body =>
          refine (ih arg ht.2).andThen fun v s hvs => ?_
          obtain ⟨hs, hvs⟩ := hvs
          obtain ⟨t, hsub, hwf, hmirrors⟩ := body.enter hu hvs hs
          simp only [hsub, Run.ofExcept_ok, pure_bind]
          exact ih hmirrors hwf
    | add pos l r =>
      cases h with
      | add _ q left right =>
        refine Leads.visit w .optional .substitution _ ht ?_
        refine (ih left ht.1).andThen fun u s hu => ?_
        refine (ih right ht.2).andThen fun v s' hv => ?_
        obtain ⟨-, hu⟩ := hu
        obtain ⟨-, hv⟩ := hv
        cases hu with
        | closure => exact Leads.noted w _ _
        | num i =>
          cases hv with
          | closure => exact Leads.noted w _ _
          | num j => exact Leads.pure ⟨trivial, .num (i + j) q⟩

/-- **On open programs the two evaluators differ only where evaluation in an environment fails.** If
it gives a number, evaluation by substitution gives the same number, and if it gives a closure, an
abstraction with the same parameter, whatever variables have been captured on the way. -/
theorem bySubstitution_returns_open {e : Term} (he : e.WellFormed) (w : Watch) :
    (∀ n, Returns (inEnv? w · e []) (some (.num n)) →
      ∃ pos, Returns (bySubstitution w · e) (some (.num pos n))) ∧
    (∀ env x b, Returns (inEnv? w · e []) (some (.closure env x b)) →
      ∃ pos c, Returns (bySubstitution w · e) (some (.abs pos x c))) := by
  have hself : Mirrors (Env.scope []) e e := mirrors_self (fun x v => by simp [Env.scope]) he
  have hleads := fun n => inEnv?_leads_bySubstitution w n hself he
  constructor
  · intro n hn
    obtain ⟨u, hu, -, hmirrored⟩ := Leads.returns hleads hn
    cases hmirrored with
    | num _ q => exact ⟨q, hu⟩
  · intro env x b hclosure
    obtain ⟨u, hu, -, hmirrored⟩ := Leads.returns hleads hclosure
    cases hmirrored with
    | closure q body => exact ⟨q, _, hu⟩

/-- The argument `λz. y` is put under a binder of `y`, which captures its variable: evaluation by
substitution goes on with `λz. 1` for it. As nobody calls the argument, both evaluators give 1. -/
theorem bySubstitution_returns_open_captured :
    let arg : Term := .abs ⟨0, 8⟩ "z" (.var ⟨0, 9⟩ "y")
    let ignore : Term := .abs ⟨0, 5⟩ "d" (.var ⟨0, 6⟩ "y")
    let fn : Term := .abs ⟨0, 2⟩ "x" (.abs ⟨0, 3⟩ "y" (.app ⟨0, 4⟩ ignore (.var ⟨0, 7⟩ "x")))
    let e : Term := .app ⟨0, 0⟩ (.app ⟨0, 1⟩ fn arg) (.num ⟨0, 10⟩ 1)
    e.WellFormed ∧ e.free = .ok ["y"] ∧ Returns (inEnv? .off · e []) (some (.num 1)) ∧
      ∃ pos, Returns (bySubstitution .off · e) (some (.num pos 1)) := by
  intro arg ignore fn e
  have he : e.WellFormed := by decide
  have hnum : Returns (inEnv? .off · e []) (some (.num 1)) := ⟨[], by simp, 9, rfl⟩
  exact ⟨he, rfl, hnum, (bySubstitution_returns_open he .off).1 1 hnum⟩

end EffectCalculus
