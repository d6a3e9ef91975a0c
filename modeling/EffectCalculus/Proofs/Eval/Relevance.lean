import EffectCalculus.Proofs.Eval.Transport
import EffectCalculus.Proofs.Value.Order

/-!
# Only free variables matter

A closure keeps a whole environment, of which its body can reach the free variables only. Closures
that agree on these cannot be told apart, and this passes through every extension and every call.

* `Value.Related`, `Env.RelatedOn`: values that differ at most in bindings out of reach, and
  environments that are related as far as some names go;
* `related_closure_iff`, `Env.RelatedOn.extend`: the two in terms of each other;
* `transport_related`: what evaluation does with them;
* `inEnv_relevant`: **evaluation depends only on the bindings of free variables**.
-/

namespace EffectCalculus

open Eval

/-! ## Related values -/

/-- The same number, or closures with one parameter and one body, where each variable that the body
takes from outside is unbound in both environments, or bound in both to related values. -/
inductive Value.Related : Value → Value → Prop
  | num (n : Int) : Related (.num n) (.num n)
  | closure {env env' : Env} {x : String} {b : Term}
      (unbound : ∀ y, b.IsFree y → y ≠ x → (env.find? y = none ↔ env'.find? y = none))
      (bound : ∀ y v v', b.IsFree y → y ≠ x → env.find? y = some v → env'.find? y = some v' →
        Related v v') : Related (.closure env x b) (.closure env' x b)

/-- Each of the names is unbound in both environments, or bound in both to related values. -/
def Env.RelatedOn (names : String → Prop) (env env' : Env) : Prop :=
  ∀ x, names x → Option.Rel Value.Related (env.find? x) (env'.find? x)

theorem related_closure_iff {env env' : Env} {x : String} {b : Term} :
    (Value.closure env x b).Related (.closure env' x b) ↔
      Env.RelatedOn (fun y => b.IsFree y ∧ y ≠ x) env env' := by
  constructor
  · rintro (_ | ⟨unbound, bound⟩) y ⟨hy, hyx⟩
    cases hv : env.find? y with
    | none =>
      rw [(unbound y hy hyx).mp hv]
      exact .none
    | some v =>
      cases hv' : env'.find? y with
      | none =>
        rw [(unbound y hy hyx).mpr hv'] at hv
        cases hv
      | some v' => exact .some (bound y v v' hy hyx hv hv')
  · intro h
    refine .closure (fun y hy hyx => ?_) fun y v v' hy hyx hv hv' => ?_
    · have hrel := h y ⟨hy, hyx⟩
      generalize env.find? y = v? at hrel ⊢
      generalize env'.find? y = v?' at hrel ⊢
      cases hrel <;> simp
    · have hrel := h y ⟨hy, hyx⟩
      rw [hv, hv'] at hrel
      cases hrel with
      | some hrel => exact hrel

theorem Value.WellFormed.related {v : Value} (h : v.WellFormed) : v.Related v := by
  induction h with
  | num n => exact .num n
  | closure _ _ ih =>
    refine .closure (fun _ _ _ => Iff.rfl) fun y v v' _ _ hv hv' => ?_
    cases hv.symm.trans hv'
    exact ih _ (Bindings.mem_of_find? hv)

namespace Env.RelatedOn

variable {names names' : String → Prop} {env env' : Env}

theorem mono (h : Env.RelatedOn names env env') (hn : ∀ x, names' x → names x) :
    Env.RelatedOn names' env env' :=
  fun x hx => h x (hn x hx)

/-- An extended environment has one name less to answer for. -/
theorem extend {x : String} (h : Env.RelatedOn (fun y => names y ∧ y ≠ x) env env') {v v' : Value}
    (hv : v.Related v') : Env.RelatedOn names (env.extend x v) (env'.extend x v') := by
  intro y hy
  by_cases hyx : y = x
  · subst hyx
    rw [Bindings.find?_extend_self, Bindings.find?_extend_self]
    exact .some hv
  · rw [Bindings.find?_extend_of_ne _ _ hyx, Bindings.find?_extend_of_ne _ _ hyx]
    exact h y ⟨hy, hyx⟩

theorem of_agree (henv : Env.WellFormed env) (h : ∀ x, names x → env.find? x = env'.find? x) :
    Env.RelatedOn names env env' := by
  intro x hx
  rw [← h x hx]
  cases hv : env.find? x with
  | none => exact .none
  | some v => exact .some (henv.find? hv).related

end Env.RelatedOn

/-! ## Related runs -/

/-- Evaluation keeps environments related on the free variables of what is evaluated. -/
theorem transport_related :
    Transport id
      (fun e env env' => e.WellFormed ∧ Env.WellFormed env ∧ Env.WellFormed env' ∧
        Env.RelatedOn e.IsFree env env')
      (fun v v' => v.WellFormed ∧ v'.WellFormed ∧ v.Related v') where
  formed h := h.1
  find := by
    rintro pos x env env' ⟨-, henv, henv', hrel⟩
    exact optionRel_imp (hrel x (Term.isFree_var.mpr rfl)) fun v v' hv hv' hvv =>
      ⟨henv.find? hv, henv'.find? hv', hvv⟩
  close := by
    rintro pos x b env env' ⟨hb, henv, henv', hrel⟩
    rw [Term.mapPos_id]
    exact ⟨.closure henv hb, .closure henv' hb,
      related_closure_iff.mpr (hrel.mono fun y hy => Term.isFree_abs.mpr hy)⟩
  app := by
    rintro pos e a env env' ⟨⟨he, ha⟩, henv, henv', hrel⟩
    exact ⟨⟨he, henv, henv', hrel.mono fun y hy => (Term.isFree_app he ha).mpr (.inl hy)⟩,
      ⟨ha, henv, henv', hrel.mono fun y hy => (Term.isFree_app he ha).mpr (.inr hy)⟩⟩
  add := by
    rintro pos l r env env' ⟨⟨hl, hr⟩, henv, henv', hrel⟩
    exact ⟨⟨hl, henv, henv', hrel.mono fun y hy => (Term.isFree_add hl hr).mpr (.inl hy)⟩,
      ⟨hr, henv, henv', hrel.mono fun y hy => (Term.isFree_add hl hr).mpr (.inr hy)⟩⟩
  num n := ⟨.num n, .num n, .num n⟩
  enterable := by
    rintro v v' ⟨hv, hv', hrel⟩
    cases hv with
    | num n =>
      cases hrel
      exact .num n
    | @closure env x b henv hb =>
      cases hv' with
      | num => cases hrel
      | @closure env' x' b' henv' hb' =>
        obtain ⟨rfl, rfl⟩ : x = x' ∧ b = b' := by
          cases hrel
          exact ⟨rfl, rfl⟩
        rw [related_closure_iff] at hrel
        have hbody : Value.closure env' x b = .closure env' x (b.mapPos id) := by
          rw [Term.mapPos_id]
        rw [hbody]
        exact .closure fun u u' ⟨hu, hu', huu⟩ =>
          ⟨hb, Env.WellFormed.extend henv x hu, Env.WellFormed.extend henv' x hu', hrel.extend huu⟩

/-- Neither evaluator tells `env` from `env'` on `e`. The fatal one has related results or the same
failure at the same place, about related values; the optional one has related results or none. -/
structure Term.Indistinct (w : Watch) (e : Term) (env env' : Env) : Prop where
  fatal : Together (EvalError.Moved id Value.Related) Value.Related (inEnv w · e env)
    (inEnv w · e env')
  optional : Together (fun _ _ => False) (Option.Rel Value.Related) (inEnv? w · e env)
    (inEnv? w · e env')

theorem Term.indistinct_of_relatedOn {e : Term} (he : e.WellFormed) {env env' : Env}
    (henv : Env.WellFormed env) (henv' : Env.WellFormed env')
    (h : Env.RelatedOn e.IsFree env env') (w : Watch) : e.Indistinct w env env' := by
  have htogether := transport_related.inEnv_together w ⟨he, henv, henv', h⟩
  rw [Term.mapPos_id] at htogether
  have hfatal := htogether.mono (fun _ _ herr => herr.mono fun _ _ hv => hv.2.2)
    fun _ _ hv => hv.2.2
  exact ⟨hfatal, inEnv?_together hfatal fun _ _ herr => herr.pos⟩

/-- **Evaluation depends only on the bindings of free variables.** In particular it depends neither
on bindings that are not used nor on the order of bindings. -/
theorem inEnv_relevant {e : Term} (he : e.WellFormed) {env : Env} (henv : Env.WellFormed env)
    (w : Watch) :
    (∀ env', Env.WellFormed env' → Env.RelatedOn e.IsFree env env' → e.Indistinct w env env') ∧
    (∀ env', Env.WellFormed env' → (∀ x, e.IsFree x → env.find? x = env'.find? x) →
      e.Indistinct w env env') ∧
    (∀ env', env.Distinct → env.Perm env' → e.Indistinct w env env') := by
  refine ⟨fun env' henv' h => ?_, fun env' henv' h => ?_, fun env' hd h => ?_⟩
  · exact Term.indistinct_of_relatedOn he henv henv' h w
  · exact Term.indistinct_of_relatedOn he henv henv' (.of_agree henv h) w
  · have henv' : Env.WellFormed env' := fun p hp => henv p (h.mem_iff.mpr hp)
    have hrel : Env.RelatedOn e.IsFree env env' :=
      .of_agree henv fun x _ => Bindings.find?_perm h hd x
    exact Term.indistinct_of_relatedOn he henv henv' hrel w

/-- The function `f` is called in environments that bind different names besides it, and to closures
of which one keeps a binding that its body does not use. Both calls give 3. -/
theorem inEnv_relevant_unused :
    let body : Term := .add ⟨0, 3⟩ (.var ⟨0, 4⟩ "x") (.var ⟨0, 5⟩ "k")
    let e : Term := .app ⟨0, 0⟩ (.var ⟨0, 1⟩ "f") (.num ⟨0, 2⟩ 1)
    let env : Env := [("f", .closure [("k", .num 2), ("z", .num 9)] "x" body), ("g", .num 0)]
    let env' : Env := [("h", .num 7), ("f", .closure [("k", .num 2)] "x" body)]
    e.WellFormed ∧ Env.WellFormed env ∧ Env.WellFormed env' ∧ Env.RelatedOn e.IsFree env env' ∧
      Returns (inEnv? .off · e env') (some (.num 3)) := by
  intro body e env env'
  have he : e.WellFormed := by decide
  have hbody : body.WellFormed := by decide
  have hnum : ∀ n : Int, (Value.num n).WellFormed := .num
  have henv : Env.WellFormed env := by
    have hkept : Env.WellFormed [("k", .num 2), ("z", .num 9)] := by
      simpa [Env.WellFormed] using ⟨hnum 2, hnum 9⟩
    simpa [env, Env.WellFormed] using ⟨Value.WellFormed.closure hkept hbody, hnum 0⟩
  have henv' : Env.WellFormed env' := by
    have hkept : Env.WellFormed [("k", .num 2)] := by
      simpa [Env.WellFormed] using hnum 2
    simpa [env', Env.WellFormed] using ⟨hnum 7, Value.WellFormed.closure hkept hbody⟩
  have hrel : Env.RelatedOn e.IsFree env env' := by
    intro y hy
    obtain rfl : y = "f" := by simpa using (Term.isFree_app he.1 he.2).mp hy
    refine .some (related_closure_iff.mpr ?_)
    rintro y ⟨hy, hyx⟩
    obtain rfl : y = "k" := by simpa [hyx] using (Term.isFree_add hbody.1 hbody.2).mp hy
    exact .some (.num 2)
  have hs : Settles (inEnv? .off · e env) (.done (some (.num 3))) [] := ⟨by simp, 7, rfl⟩
  have hsame := ((inEnv_relevant he henv .off).1 env' henv' hrel).optional
  obtain ⟨out', log', hs', hrel'⟩ := hsame.settles hs
  cases hrel' with
  | done hresult =>
    cases hresult with
    | some hvalue =>
      cases hvalue
      exact ⟨he, henv, henv', hrel, log', hs'⟩

end EffectCalculus
