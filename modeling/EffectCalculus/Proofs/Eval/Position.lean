import EffectCalculus.Proofs.Eval.Block
import EffectCalculus.Proofs.Eval.Nameless
import EffectCalculus.Proofs.Eval.Transport
import EffectCalculus.Proofs.Term.Avoiding
import EffectCalculus.Proofs.Value.Position

/-!
# Positions do not influence evaluation

Changing the positions in a program changes those in its results and errors in the same way, and
nothing else. So programs that are equal up to positions have results that are.

* `bySubstitution_relates`, `transport_mapPos`: each evaluator goes in step with itself on a program
  with other positions;
* `substitutions_mapPos`, `substitutions_same`: the three substitutions;
* `inEnv_same`, `bySubstitution_same`: programs that are equal up to positions;
* `positions_carried`: **positions are carried along faithfully**, by every operation.
-/

namespace EffectCalculus

open Eval Term

/-! ## Substitutions -/

/-- The three substitutions. -/
def substitutions : List (String → Term → Term → Except EvalError Term) :=
  [subst, substViaReader, substAvoiding]

theorem exists_substitution {S : String → Term → Term → Except EvalError Term}
    (hS : S ∈ substitutions) (x : String) {r e : Term} (hr : r.WellFormed) (he : e.WellFormed) :
    ∃ t, S x r e = .ok t := by
  simp only [substitutions, List.mem_cons, List.not_mem_nil, or_false] at hS
  obtain ⟨t, ht, -⟩ := exists_subst x hr he
  rcases hS with rfl | rfl | rfl
  · exact ⟨t, ht⟩
  · exact ⟨t, by rw [substViaReader_eq_subst x r he, ht]⟩
  · obtain ⟨t, ht, -⟩ := exists_avoids x hr he
    exact ⟨t, ht⟩

theorem substitutions_mapPos {S : String → Term → Term → Except EvalError Term}
    (hS : S ∈ substitutions) (f : Pos → Pos) (x : String) (r : Term) {e : Term}
    (he : e.WellFormed) : S x (r.mapPos f) (e.mapPos f) = (S x r e).map (mapPos f) := by
  simp only [substitutions, List.mem_cons, List.not_mem_nil, or_false] at hS
  rcases hS with rfl | rfl | rfl
  · exact subst_mapPos f x r e
  · exact substViaReader_mapPos f x r he
  · exact substAvoiding_mapPos f x r e

/-- Substitution in terms that are equal up to positions gives terms that are. -/
theorem substitutions_same {S : String → Term → Term → Except EvalError Term}
    (hS : S ∈ substitutions) (x : String) {r r' e e' : Term} (hr : r.WellFormed)
    (hr' : r'.WellFormed) (he : e.WellFormed) (he' : e'.WellFormed) (hrr : r.same r' = true)
    (hee : e.same e' = true) : ∃ t t', S x r e = .ok t ∧ S x r' e' = .ok t' ∧ t.same t' = true := by
  obtain ⟨t, ht⟩ := exists_substitution hS x hr he
  obtain ⟨t', ht'⟩ := exists_substitution hS x hr' he'
  have hbare : S x r.bare e.bare = .ok t.bare := by
    rw [bare, bare, substitutions_mapPos hS _ x r he, ht]
    rfl
  have hbare' : S x r'.bare e'.bare = .ok t'.bare := by
    rw [bare, bare, substitutions_mapPos hS _ x r' he', ht']
    rfl
  rw [bare_eq_of_same hr hrr, bare_eq_of_same he hee, hbare'] at hbare
  exact ⟨t, t', ht, ht', same_of_bare_eq (Except.ok.inj hbare).symm⟩

/-! ## Evaluation by substitution -/

theorem sum?_mapPos (f : Pos → Pos) (pos : Pos) (u v : Term) :
    Term.sum? (f pos) (u.mapPos f) (v.mapPos f) = (Term.sum? pos u v).map (mapPos f) := by
  cases u <;> cases v <;> rfl

theorem sum?_wellFormed {pos : Pos} {u v t : Term} (h : Term.sum? pos u v = some t) :
    t.WellFormed := by
  cases u <;> cases v <;> cases h
  trivial

/-- **Evaluation by substitution carries positions along.** -/
theorem bySubstitution_relates (f : Pos → Pos) (w : Watch) (n : Nat) {e : Term}
    (he : e.WellFormed) :
    Relates (fun _ _ => False) (Option.Rel fun t t' => t.WellFormed ∧ t' = t.mapPos f)
      (bySubstitution w n e) (bySubstitution w n (e.mapPos f)) := by
  induction n generalizing e with
  | zero => exact Relates.unfinished
  | succ n ih =>
    unfold bySubstitution
    refine Relates.visit w .substitution he ((wellFormed_mapPos f e).mpr he) ?_
    cases e with
    | var pos x =>
      exact ⟨_, _, _, _, ends_note_none w _, ends_note_none w _, .done .none⟩
    | abs pos x b => exact Relates.pure (.some ⟨he, rfl⟩)
    | num pos k => exact Relates.pure (.some ⟨he, rfl⟩)
    | atom => exact he.elim
    | app pos e a =>
      refine (ih he.1).andThen ?_
      rintro callee _ ⟨hcallee, rfl⟩
      cases callee with
      | abs q x b =>
        refine (ih he.2).andThen ?_
        rintro v _ ⟨hv, rfl⟩
        have hb : b.WellFormed := hcallee
        obtain ⟨t, ht, htf⟩ := exists_subst x hv hb
        have ht' : subst x (v.mapPos f) (b.mapPos f) = .ok (t.mapPos f) := by
          rw [subst_mapPos, ht]
          rfl
        rw [ht, ht']
        exact ih htf
      | _ => exact Relates.pure .none
    | add pos l r =>
      refine (ih he.1).andThen ?_
      rintro u _ ⟨hu, rfl⟩
      refine (ih he.2).andThen ?_
      rintro v _ ⟨hv, rfl⟩
      refine Relates.pure ?_
      rw [sum?_mapPos]
      cases hsum : Term.sum? pos u v with
      | none => exact .none
      | some t => exact .some ⟨sum?_wellFormed hsum, rfl⟩

theorem bySubstitution_together (f : Pos → Pos) (w : Watch) {e : Term} (he : e.WellFormed) :
    Together (fun _ _ => False) (Option.Rel fun t t' => t' = t.mapPos f) (bySubstitution w · e)
      (bySubstitution w · (e.mapPos f)) := by
  have h := Together.of_relates (bySubstitution_below w (e.mapPos f)) fun n =>
    bySubstitution_relates f w n he
  exact h.mono (fun _ _ => id) fun _ _ hr => optionRel_imp hr fun _ _ _ _ ht => ht.2

theorem bySubstitution_same (w : Watch) {e e' : Term} (he : e.WellFormed) (he' : e'.WellFormed)
    (h : e.same e' = true) :
    Together (fun _ _ => False) (Option.Rel fun t t' => t.same t' = true) (bySubstitution w · e)
      (bySubstitution w · e') := by
  have hbare := bySubstitution_together (fun _ => Pos.none) w he
  have hbare' := bySubstitution_together (fun _ => Pos.none) w he'
  change Together _ _ _ (bySubstitution w · e'.bare) at hbare'
  rw [← bare_eq_of_same he h] at hbare'
  refine (hbare.span hbare').mono (fun _ _ ⟨_, herr, _⟩ => herr) ?_
  rintro _ _ ⟨_, ht, ht'⟩
  cases ht with
  | none =>
    cases ht'
    exact .none
  | some ht =>
    cases ht' with
    | some ht' => exact .some (same_of_bare_eq (ht.symm.trans ht'))

/-! ## Evaluation in an environment -/

/-- Evaluation carries positions along in environments. If no name is bound twice at the start
(`K`), then none is in the end. -/
theorem transport_mapPos (f : Pos → Pos) (K : Prop) :
    Transport f
      (fun e env env' => e.WellFormed ∧ Env.WellFormed env ∧ (K → Env.Keyed env) ∧
        env' = Value.mapPosEach f env)
      (fun v v' => v.WellFormed ∧ (K → v.Keyed) ∧ v' = v.mapPos f) where
  formed h := h.1
  find := by
    rintro pos x env _ ⟨-, henv, hkeyed, rfl⟩
    rw [Value.find?_mapPosEach]
    cases hv : env.find? x with
    | none => exact .none
    | some v => exact .some ⟨henv.find? hv, fun hk => (hkeyed hk).find? hv, rfl⟩
  close := by
    rintro pos x b env _ ⟨hb, henv, hkeyed, rfl⟩
    exact ⟨.closure henv hb, fun hk => .closure (hkeyed hk).1 (hkeyed hk).2, rfl⟩
  app := by
    rintro pos e a env _ ⟨⟨he, ha⟩, henv⟩
    exact ⟨⟨he, henv⟩, ⟨ha, henv⟩⟩
  add := by
    rintro pos l r env _ ⟨⟨hl, hr⟩, henv⟩
    exact ⟨⟨hl, henv⟩, ⟨hr, henv⟩⟩
  num n := ⟨.num n, fun _ => .num n, rfl⟩
  enterable := by
    rintro v _ ⟨hv, hkeyed, rfl⟩
    cases hv with
    | num n => exact .num n
    | @closure env x b henv hb =>
      refine .closure ?_
      rintro u _ ⟨hu, hkeyedu, rfl⟩
      refine ⟨hb, Env.WellFormed.extend henv x hu, fun hk => ?_,
        (Value.mapPosEach_extend f env x u).symm⟩
      cases hkeyed hk with
      | closure hd hbindings => exact Env.Keyed.extend ⟨hd, hbindings⟩ x (hkeyedu hk)

theorem inEnv_mapPos (f : Pos → Pos) (w : Watch) {e : Term} (he : e.WellFormed) {env : Env}
    (henv : Env.WellFormed env) :
    Together (EvalError.Moved f fun v v' => v' = v.mapPos f) (fun v v' => v' = v.mapPos f)
      (inEnv w · e env) (inEnv w · (e.mapPos f) (Value.mapPosEach f env)) := by
  have h := (transport_mapPos f False).inEnv_together w ⟨he, henv, False.elim, rfl⟩
  exact h.mono (fun _ _ herr => herr.mono fun _ _ hv => hv.2.2) fun _ _ hv => hv.2.2

theorem EvalError.Moved.failure_eq {f : Pos → Pos} {V : Value → Value → Prop}
    {err err' : EvalError} (h : EvalError.Moved f V err err') : err'.failure = err.failure := by
  cases h <;> rfl

/-- Errors that are one error once their positions and values are forgotten. -/
def EvalError.Alike (err err' : EvalError) : Prop :=
  err.failure = err'.failure ∧ err.pos?.isSome = true ∧ err'.pos?.isSome = true

theorem inEnv_same (w : Watch) {e e' : Term} (he : e.WellFormed) (he' : e'.WellFormed)
    (h : e.same e' = true) {env : Env} (henv : Env.WellFormed env) (hkeyed : Env.Keyed env) :
    Together EvalError.Alike (fun v v' => v.same v' = true) (inEnv w · e env)
      (inEnv w · e' env) := by
  have T := transport_mapPos (fun _ => Pos.none) True
  have hbare := T.inEnv_together w ⟨he, henv, fun _ => hkeyed, rfl⟩
  have hbare' := T.inEnv_together w ⟨he', henv, fun _ => hkeyed, rfl⟩
  change Together _ _ _ (inEnv w · e'.bare _) at hbare'
  rw [← bare_eq_of_same he h] at hbare'
  refine (hbare.span hbare').mono ?_ ?_
  · rintro err err' ⟨_, herr, herr'⟩
    exact ⟨herr.failure_eq.symm.trans herr'.failure_eq, herr.pos.1, herr'.pos.1⟩
  · rintro v v' ⟨_, ⟨-, hk, hv⟩, -, -, hv'⟩
    exact (hk trivial).same_of_mapPos_eq (hv.symm.trans hv')

/-! ## Every operation -/

/-- **Positions are carried along faithfully.** With `f` applied to every position of their inputs,
the substitutions, the free variables and the four evaluators give what they give without, with `f`
applied to every position. So on inputs that are equal up to positions, the results are. -/
theorem positions_carried (f : Pos → Pos) :
    (∀ S ∈ substitutions, ∀ x (r e : Term), r.WellFormed → e.WellFormed →
      ∃ t, S x r e = .ok t ∧ S x (r.mapPos f) (e.mapPos f) = .ok (t.mapPos f)) ∧
    (∀ e : Term, e.WellFormed → ∃ xs, e.freeVars = .ok xs ∧ (e.mapPos f).freeVars = .ok xs) ∧
    (∀ w (e : Term), e.WellFormed → ∀ eval ∈ [bySubstitution, byBlock],
      Together (fun _ _ => False) (Option.Rel fun t t' => t' = t.mapPos f) (bySubstitution w · e)
        (eval w · (e.mapPos f))) ∧
    (∀ w (e : Term) (env : Env), e.WellFormed → Env.WellFormed env →
      Together (EvalError.Moved f fun v v' => v' = v.mapPos f) (fun v v' => v' = v.mapPos f)
        (inEnv w · e env) (inEnv w · (e.mapPos f) (Value.mapPosEach f env)) ∧
      Together (fun _ _ => False) (Option.Rel fun v v' => v' = v.mapPos f) (inEnv? w · e env)
        (inEnv? w · (e.mapPos f) (Value.mapPosEach f env))) ∧
    (∀ S ∈ substitutions, ∀ x (r r' e e' : Term), r.WellFormed → r'.WellFormed → e.WellFormed →
      e'.WellFormed → r.same r' = true → e.same e' = true →
      ∃ t t', S x r e = .ok t ∧ S x r' e' = .ok t' ∧ t.same t' = true) ∧
    (∀ e e' : Term, e.WellFormed → e'.WellFormed → e.same e' = true →
      e.freeVars = e'.freeVars ∧
      ∀ w, (∀ eval ∈ [bySubstitution, byBlock],
        Together (fun _ _ => False) (Option.Rel fun t t' => t.same t' = true) (eval w · e)
          (eval w · e')) ∧
      ∀ env, Env.WellFormed env → Env.Keyed env →
        Together EvalError.Alike (fun v v' => v.same v' = true) (inEnv w · e env)
          (inEnv w · e' env) ∧
        Together (fun _ _ => False) (Option.Rel fun v v' => v.same v' = true) (inEnv? w · e env)
          (inEnv? w · e' env)) := by
  refine ⟨fun S hS x r e hr he => ?_, fun e he => ?_, fun w e he eval heval => ?_,
    fun w e env he henv => ?_, fun S hS x r r' e e' hr hr' he he' hrr hee => ?_,
    fun e e' he he' h => ⟨?_, fun w => ⟨fun eval heval => ?_, fun env henv hkeyed => ?_⟩⟩⟩
  · obtain ⟨t, ht⟩ := exists_substitution hS x hr he
    refine ⟨t, ht, ?_⟩
    rw [substitutions_mapPos hS f x r he, ht]
    rfl
  · obtain ⟨xs, hxs⟩ := exists_freeVars he
    exact ⟨xs, hxs, by rw [freeVars_mapPos, hxs]⟩
  · have htogether := bySubstitution_together f w he
    simp only [List.mem_cons, List.not_mem_nil, or_false] at heval
    rcases heval with rfl | rfl
    · exact htogether
    · exact htogether.congr_right (bySubstitution_settles_iff w (e.mapPos f))
  · have hfatal := inEnv_mapPos f w he henv
    exact ⟨hfatal, inEnv?_together hfatal fun _ _ herr => herr.pos⟩
  · exact substitutions_same hS x hr hr' he he' hrr hee
  · rw [← freeVars_mapPos fun _ => Pos.none, ← freeVars_mapPos (fun _ => Pos.none) e']
    exact congrArg freeVars (bare_eq_of_same he h)
  · have htogether := bySubstitution_same w he he' h
    simp only [List.mem_cons, List.not_mem_nil, or_false] at heval
    rcases heval with rfl | rfl
    · exact htogether
    · exact (htogether.congr_left (bySubstitution_settles_iff w e)).congr_right
        (bySubstitution_settles_iff w e')
  · have hfatal := inEnv_same w he he' h henv hkeyed
    exact ⟨hfatal, inEnv?_together hfatal fun _ _ herr => herr.2⟩

/-- Everything one line further down: a binder that is renamed, a call that gives 3, and a sum with
a closure that fails one line further down, but in the same way. -/
theorem positions_carried_next_line :
    let f : Pos → Pos := fun p => ⟨p.line + 1, p.column⟩
    let binder : Term := .abs ⟨0, 0⟩ "y" (.add ⟨0, 1⟩ (.var ⟨0, 2⟩ "x") (.var ⟨0, 3⟩ "y"))
    let call : Term := .app ⟨0, 0⟩ (.abs ⟨0, 1⟩ "x" (.add ⟨0, 2⟩ (.var ⟨0, 3⟩ "x") (.num ⟨0, 4⟩ 1)))
      (.num ⟨0, 5⟩ 2)
    let sum : Term := .add ⟨0, 0⟩ (.var ⟨0, 1⟩ "g") (.num ⟨0, 2⟩ 1)
    let g : Value := .closure [] "x" (.var ⟨0, 3⟩ "x")
    (∃ t, substAvoiding "x" (.var ⟨0, 4⟩ "y") binder = .ok t ∧
      substAvoiding "x" (.var ⟨1, 4⟩ "y") (binder.mapPos f) = .ok (t.mapPos f)) ∧
    Returns (byBlock .off · (call.mapPos f)) (some (.num ⟨1, 2⟩ 3)) ∧
    Raises (inEnv .off · (sum.mapPos f) [("g", g.mapPos f)])
      (.notNumbers (g.mapPos f) (.num 1) ⟨1, 0⟩) ∧
    sum.same (sum.mapPos f) = true ∧ Env.Keyed [("g", g)] ∧
    Returns (inEnv? .off · (sum.mapPos f) [("g", g)]) none := by
  intro f binder call sum g
  obtain ⟨hsubst, -, hcall, hsum, -, hsame⟩ := positions_carried f
  have hformed : Env.WellFormed [("g", g)] := by
    intro p hp
    obtain rfl := List.mem_singleton.mp hp
    exact .closure (fun q hq => by cases hq) trivial
  have hkeyed : Env.Keyed [("g", g)] := by
    refine ⟨by decide, fun p hp => ?_⟩
    obtain rfl := List.mem_singleton.mp hp
    exact .closure (by decide) fun q hq => by cases hq
  refine ⟨?_, ?_, ?_, by decide, hkeyed, ?_⟩
  · exact hsubst substAvoiding (by simp [substitutions]) "x" (.var ⟨0, 4⟩ "y") binder trivial
      (by decide)
  · have htogether := hcall .off call (by decide) byBlock (by simp)
    have hs : Settles (bySubstitution .off · call) (.done (some (.num ⟨0, 2⟩ 3))) [] :=
      ⟨by simp, 3, rfl⟩
    obtain ⟨out, log, hs', hrel⟩ := htogether.settles hs
    cases hrel with
    | done hresult =>
      cases hresult with
      | some ht =>
        cases ht
        exact ⟨log, hs'⟩
  · have htogether := (hsum .off sum _ (by decide) hformed).1
    have hs : Settles (inEnv .off · sum [("g", g)])
        (.fault (.notNumbers g (.num 1) ⟨0, 0⟩)) [] := ⟨by simp, 2, rfl⟩
    obtain ⟨out, log, hs', hrel⟩ := htogether.settles hs
    cases hrel with
    | fault herr =>
      cases herr with
      | notNumbers pos hu hv =>
        subst hu hv
        exact ⟨log, hs'⟩
  · have htogether := ((hsame sum (sum.mapPos f) (by decide) (by decide) (by decide)).2 .off).2 _
      hformed hkeyed
    have hs : Settles (inEnv? .off · sum [("g", g)]) (.done none) [] := ⟨by simp, 2, rfl⟩
    obtain ⟨out, log, hs', hrel⟩ := htogether.2.settles hs
    cases hrel with
    | done hresult =>
      cases hresult
      exact ⟨log, hs'⟩

end EffectCalculus
