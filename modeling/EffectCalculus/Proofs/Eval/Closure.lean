import EffectCalculus.Proofs.Eval.Log
import EffectCalculus.Proofs.Term.Position
import EffectCalculus.Proofs.Value.Readback

/-!
# Closures and substitution

Evaluating a term in an environment and evaluating the term with the environment substituted into
it are the same evaluation. Only closed terms are ever substituted, so no binder captures anything.

* `Represents`: a term stands for another in an environment;
* `Alike`, `bySubstitution_alike`: **the two evaluators go in step**, call by call;
* `bySubstitution_readback`: they have the same results, and take the same number of calls.
-/

namespace EffectCalculus

open Eval Term

/-! ## In step -/

/-- Outcomes of two optional evaluations, with results in the relation `R`. -/
inductive Corresponds {α β : Type} (R : α → β → Prop) :
    Outcome EvalError (Option α) → Outcome EvalError (Option β) → Prop
  | both {a : α} {b : β} (h : R a b) : Corresponds R (.done (some a)) (.done (some b))
  | neither : Corresponds R (.done none) (.done none)
  | unfinished : Corresponds R .unfinished .unfinished

/-- Both end alike, having begun with equally many terms. -/
def Alike {α β : Type} (R : α → β → Prop) (m : Eval (Option α)) (m' : Eval (Option β)) : Prop :=
  ∃ out out' notes notes', m.Ends out notes ∧ m'.Ends out' notes' ∧ Corresponds R out out' ∧
    (visited notes).length = (visited notes').length

namespace Alike

variable {α β γ δ : Type} {R : α → β → Prop} {S : γ → δ → Prop}

theorem pure {a : α} {b : β} (h : R a b) : Alike R (Pure.pure (some a)) (Pure.pure (some b)) :=
  ⟨_, _, [], [], ends_pure _, ends_pure _, .both h, rfl⟩

theorem unfinished :
    Alike R (Run.unfinished : Eval (Option α)) (Run.unfinished : Eval (Option β)) :=
  ⟨_, _, [], [], ends_unfinished, ends_unfinished, .unfinished, rfl⟩

/-- Neither has a result, and the second notes why. -/
theorem noted (w : Watch) {note : Note} (h : note.visited? = none) :
    Alike R (Pure.pure none) (w.note note >>= fun _ => Pure.pure none) := by
  refine ⟨_, _, [], _, ends_pure none, ends_note_none w note, .neither, ?_⟩
  cases hw : w.verbose <;> simp [visited, Watch.kept, hw, h]

theorem andThen {m : Eval (Option α)} {m' : Eval (Option β)} {k : α → Eval (Option γ)}
    {k' : β → Eval (Option δ)} (hm : Alike R m m')
    (hk : ∀ a b, R a b → Alike S (k a) (k' b)) : Alike S (m.andThen k) (m'.andThen k') := by
  obtain ⟨_, _, notes, notes', h, h', hout, hlen⟩ := hm
  cases hout with
  | neither => exact ⟨_, _, notes, notes', h.andThen_none k, h'.andThen_none k', .neither, hlen⟩
  | unfinished =>
    exact ⟨_, _, notes, notes', h.andThen_unfinished k, h'.andThen_unfinished k', .unfinished,
      hlen⟩
  | @both a b hab =>
    obtain ⟨out₂, out₂', notes₂, notes₂', h₂, h₂', hout₂, hlen₂⟩ := hk a b hab
    refine ⟨out₂, out₂', _, _, h.andThen_some h₂, h'.andThen_some h₂', hout₂, ?_⟩
    simp only [visited_append, List.length_append, hlen, hlen₂]

theorem visit {m : Eval (Option α)} {m' : Eval (Option β)} (w : Watch) {t e : Term}
    (ht : t.WellFormed) (he : e.WellFormed) (h : Alike R m m') :
    Alike R (w.visit .substitution t >>= fun _ => m) (w.visit .optional e >>= fun _ => m') := by
  obtain ⟨out, out', notes, notes', hm, hm', hout, hlen⟩ := h
  refine ⟨out, out', _, _, (w.visit_of_wellFormed ht .substitution).bind_done hm,
    (w.visit_of_wellFormed he .optional).bind_done hm', hout, ?_⟩
  simp only [visited_append, List.length_append, hlen, Watch.visited_traced]
  split <;> rfl

theorem symm {m : Eval (Option α)} {m' : Eval (Option β)} (h : Alike R m m') :
    Alike (flip R) m' m := by
  obtain ⟨out, out', notes, notes', hm, hm', hout, hlen⟩ := h
  refine ⟨out', out, notes', notes, hm', hm, ?_, hlen.symm⟩
  cases hout with
  | both hab => exact .both hab
  | neither => exact .neither
  | unfinished => exact .unfinished

section Bounds

variable {f : Nat → Eval (Option α)} {g : Nat → Eval (Option β)}

theorem settles (h : ∀ n, Alike R (f n) (g n)) {out : Outcome EvalError (Option α)}
    {log : List Note} (hf : Settles f out log) :
    ∃ out' log', Settles g out' log' ∧ Corresponds R out out' ∧
      (visited log).length = (visited log').length := by
  obtain ⟨hout, n, hn⟩ := hf
  obtain ⟨_, out', _, notes', hm, hm', hc, hlen⟩ := h n
  obtain ⟨rfl, rfl⟩ := Prod.mk.inj (hm.eq.symm.trans hn)
  refine ⟨out', notes', ⟨?_, n, hm'.eq⟩, hc, hlen⟩
  cases hc with
  | unfinished => exact absurd rfl hout
  | _ => simp

theorem returns_some (h : ∀ n, Alike R (f n) (g n)) {a : α} (ha : Returns f (some a)) :
    ∃ b, Returns g (some b) ∧ R a b := by
  obtain ⟨log, hf⟩ := ha
  obtain ⟨_, log', hg, ⟨hab⟩, -⟩ := settles h hf
  exact ⟨_, ⟨log', hg⟩, hab⟩

theorem returns_none (h : ∀ n, Alike R (f n) (g n)) (hn : Returns f none) : Returns g none := by
  obtain ⟨log, hf⟩ := hn
  obtain ⟨_, log', hg, ⟨⟩, -⟩ := settles h hf
  exact ⟨log', hg⟩

theorem haltsAfter (h : ∀ n, Alike R (f n) (g n)) {k : Nat} (hk : HaltsAfter f k) :
    HaltsAfter g k := by
  obtain ⟨out, log, hf, hlog⟩ := hk
  obtain ⟨out', log', hg, -, hlen⟩ := settles h hf
  exact ⟨out', log', hg, hlen.symm.trans hlog⟩

theorem halts (h : ∀ n, Alike R (f n) (g n)) (hf : Halts f) : Halts g := by
  obtain ⟨out, log, hf⟩ := hf
  obtain ⟨out', log', hg, -⟩ := settles h hf
  exact ⟨out', log', hg⟩

end Bounds

end Alike

/-! ## The simulation -/

/-- Up to positions, `t` is `e` with the bindings of `env` filled in, and these are enough. -/
structure Represents (t e : Term) (env : Env) : Prop where
  wellFormed : e.WellFormed
  bindings : Env.WellScoped env
  scope : ∀ x, e.IsFree x → x ∈ env.names
  form : t.bare = (e.fill (Bindings.find? (Value.readbackEach env))).bare

/-- `u` is the term of the well-scoped value `v`, up to positions. -/
def ReadsAs (u : Term) (v : Value) : Prop := v.WellScoped ∧ u.bare = v.readback.bare

theorem Represents.wellFormed_left {t e : Term} {env : Env} (h : Represents t e env) :
    t.WellFormed :=
  wellFormed_of_bare_eq h.form (wellFormed_fill h.bindings.closed h.wellFormed)

theorem Represents.app {t f a : Term} {pos : Pos} {env : Env}
    (h : Represents t (.app pos f a) env) :
    ∃ q f' a', t = .app q f' a' ∧ Represents f' f env ∧ Represents a' a env := by
  obtain ⟨he, henv, scope, form⟩ := h
  obtain ⟨q, f', a', rfl, hf, ha⟩ := bare_eq_app form
  refine ⟨q, f', a', rfl, ⟨he.1, henv, fun x hx => ?_, hf⟩, ⟨he.2, henv, fun x hx => ?_, ha⟩⟩
  · exact scope x ((isFree_app he.1 he.2).mpr (.inl hx))
  · exact scope x ((isFree_app he.1 he.2).mpr (.inr hx))

theorem Represents.add {t l r : Term} {pos : Pos} {env : Env}
    (h : Represents t (.add pos l r) env) :
    ∃ q l' r', t = .add q l' r' ∧ Represents l' l env ∧ Represents r' r env := by
  obtain ⟨he, henv, scope, form⟩ := h
  obtain ⟨q, l', r', rfl, hl, hr⟩ := bare_eq_add form
  refine ⟨q, l', r', rfl, ⟨he.1, henv, fun x hx => ?_, hl⟩, ⟨he.2, henv, fun x hx => ?_, hr⟩⟩
  · exact scope x ((isFree_add he.1 he.2).mpr (.inl hx))
  · exact scope x ((isFree_add he.1 he.2).mpr (.inr hx))

theorem ReadsAs.num {u : Term} {k : Int} (h : ReadsAs u (.num k)) : ∃ q, u = .num q k :=
  bare_eq_num h.2

theorem ReadsAs.closure {u b : Term} {x : String} {env : Env}
    (h : ReadsAs u (.closure env x b)) : ∃ q c, u = .abs q x c := by
  obtain ⟨q, c, hu, -⟩ := bare_eq_abs h.2
  exact ⟨q, c, hu⟩

/-- The term of a value evaluates to itself. -/
theorem ReadsAs.bySubstitution_eq {u : Term} {v : Value} (h : ReadsAs u v) (w : Watch) (n : Nat) :
    bySubstitution w (n + 1) u = (w.visit .substitution u >>= fun _ => pure (some u)) := by
  cases v with
  | num k =>
    obtain ⟨q, rfl⟩ := h.num
    rfl
  | closure env x b =>
    obtain ⟨q, c, rfl⟩ := h.closure
    rfl
  | atom => cases h.1

/-- Entering the body of a closure. -/
theorem Represents.enter {inner : Env} {x : String} {b : Term} {v : Value} {q : Pos}
    {c s : Term} (hc : ReadsAs (.abs q x c) (.closure inner x b)) (hs : ReadsAs s v) :
    ∃ t, subst x s c = .ok t ∧ Represents t b (inner.extend x v) := by
  obtain ⟨hclo, hform⟩ := hc
  obtain ⟨hv, hsv⟩ := hs
  cases hclo with
  | closure bindings body scope =>
    have hb : c.bare =
        (b.fill (Filling.without (Bindings.find? (Value.readbackEach inner)) x)).bare := by
      simpa [Value.readback, fill, bare, mapPos] using hform
    obtain ⟨t, ht, hbare⟩ := subst_of_bare_eq hsv hb (subst_fill_readback bindings body x v)
    refine ⟨t, ht, body, Env.WellScoped.extend bindings x hv, fun y hy => ?_, hbare⟩
    exact Bindings.mem_names_extend (scope y hy)

/-- **The two evaluators go in step.** -/
theorem bySubstitution_alike (w : Watch) (n : Nat) {t e : Term} {env : Env}
    (h : Represents t e env) : Alike ReadsAs (bySubstitution w n t) (inEnv? w n e env) := by
  induction n generalizing t e env with
  | zero => exact Alike.unfinished
  | succ n ih =>
    have ht := h.wellFormed_left
    have he := h.wellFormed
    cases e with
    | atom => exact he.elim
    | var pos x =>
      -- Here `t` is the term of the value bound to `x`, and evaluates to itself in one call.
      obtain ⟨v, hv⟩ := Bindings.exists_find? (h.scope x (isFree_var.mpr rfl))
      have hread : ReadsAs t v := by
        refine ⟨h.bindings.find? hv, ?_⟩
        rw [h.form, fill, Value.find?_readbackEach, hv]
        rfl
      rw [hread.bySubstitution_eq]
      unfold inEnv?
      simp only [hv]
      exact Alike.visit w ht he (Alike.pure hread)
    | num pos k =>
      obtain ⟨q, rfl⟩ := bare_eq_num h.form
      exact Alike.visit w ht he (Alike.pure ⟨.num k, rfl⟩)
    | abs pos x b =>
      have hread : ReadsAs t (.closure env x b) := by
        refine ⟨.closure h.bindings he fun y hy => ?_, h.form⟩
        by_cases hyx : y = x
        · exact .inl hyx
        · exact .inr (h.scope y (isFree_abs.mpr ⟨hy, hyx⟩))
      rw [hread.bySubstitution_eq]
      exact Alike.visit w ht he (Alike.pure hread)
    | app pos f a =>
      obtain ⟨q, f', a', rfl, hf, ha⟩ := h.app
      refine Alike.visit w ht he ((ih hf).andThen fun u v huv => ?_)
      cases v with
      | atom => cases huv.1
      | num k =>
        obtain ⟨p, rfl⟩ := huv.num
        exact Alike.noted w rfl
      | closure inner x b =>
        obtain ⟨p, c, rfl⟩ := huv.closure
        refine (ih ha).andThen fun s v hs => ?_
        obtain ⟨t, hsub, hrep⟩ := Represents.enter huv hs
        simp only [hsub, Run.ofExcept_ok, pure_bind]
        exact ih hrep
    | add pos l r =>
      obtain ⟨q, l', r', rfl, hl, hr⟩ := h.add
      refine Alike.visit w ht he ((ih hl).andThen fun u v huv => ?_)
      refine (ih hr).andThen fun u' v' huv' => ?_
      cases v with
      | atom => cases huv.1
      | closure inner x b =>
        obtain ⟨p, c, rfl⟩ := huv.closure
        exact Alike.noted w rfl
      | num i =>
        obtain ⟨p, rfl⟩ := huv.num
        cases v' with
        | atom => cases huv'.1
        | closure inner x b =>
          obtain ⟨p', c, rfl⟩ := huv'.closure
          exact Alike.noted w rfl
        | num j =>
          obtain ⟨p', rfl⟩ := huv'.num
          exact Alike.pure ⟨.num (i + j), rfl⟩

/-! ## Results and calls -/

/-- Let `env` bind what `e` mentions to well-scoped values, and let `t` be `e` with the terms of
these values substituted. Evaluating `t` by substitution and `e` in `env` gives results together,
and then one term up to positions; lacks one together; and ends together, after equally many calls.
-/
theorem bySubstitution_readback {e : Term} {env : Env} (he : e.WellFormed)
    (henv : Env.WellScoped env) (scope : ∀ x, e.IsFree x → x ∈ env.names) :
    ∃ t, e.substEach (Value.readbackEach env) = .ok t ∧ ∀ w,
      ((∃ u, Returns (bySubstitution w · t) (some u)) ↔
        ∃ v, Returns (inEnv? w · e env) (some v)) ∧
      (∀ u v, Returns (bySubstitution w · t) (some u) → Returns (inEnv? w · e env) (some v) →
        u.same v.readback = true) ∧
      (Returns (bySubstitution w · t) none ↔ Returns (inEnv? w · e env) none) ∧
      (Halts (bySubstitution w · t) ↔ Halts (inEnv? w · e env)) ∧
      (∀ k, HaltsAfter (bySubstitution w · t) k ↔ HaltsAfter (inEnv? w · e env) k) := by
  refine ⟨_, substEach_readbackEach henv he, fun w => ?_⟩
  have alike := fun n => bySubstitution_alike w n ⟨he, henv, scope, rfl⟩
  have alike' := fun n => (alike n).symm
  refine ⟨⟨?_, ?_⟩, ?_, ⟨Alike.returns_none alike, Alike.returns_none alike'⟩,
    ⟨Alike.halts alike, Alike.halts alike'⟩,
    fun k => ⟨Alike.haltsAfter alike, Alike.haltsAfter alike'⟩⟩
  · rintro ⟨u, hu⟩
    obtain ⟨v, hv, -⟩ := Alike.returns_some alike hu
    exact ⟨v, hv⟩
  · rintro ⟨v, hv⟩
    obtain ⟨u, hu, -⟩ := Alike.returns_some alike' hv
    exact ⟨u, hu⟩
  · intro u v hu hv
    obtain ⟨v', hv', hread⟩ := Alike.returns_some alike hu
    have heq : some v = some v' := returns_unique (fun _ _ => inEnv?_below w e env) hv hv'
    cases heq
    exact same_of_bare_eq hread.2

/-- A call of a closure that has a value of its own for the name of its argument. -/
theorem bySubstitution_readback_call :
    let inner : Env := [("y", .num 1)]
    let body : Term := .add ⟨0, 1⟩ (.var ⟨0, 2⟩ "x") (.var ⟨0, 3⟩ "y")
    let env : Env := [("f", .closure inner "x" body), ("y", .num 2)]
    let e : Term := .app ⟨1, 0⟩ (.var ⟨1, 1⟩ "f") (.var ⟨1, 2⟩ "y")
    e.WellFormed ∧ Env.WellScoped env ∧ (∀ x, e.IsFree x → x ∈ env.names) ∧
      ∃ t u, e.substEach (Value.readbackEach env) = .ok t ∧
        Returns (bySubstitution Watch.off · t) (some u) ∧ u.same (.num Pos.none 3) = true := by
  intro inner body env e
  have hbody : body.WellFormed := by decide
  have he : e.WellFormed := by decide
  have henv : Env.WellScoped env := by
    intro p hp
    rcases List.mem_cons.mp hp with rfl | hp
    · refine .closure (fun q hq => ?_) hbody fun y hy => ?_
      · cases List.mem_singleton.mp hq
        exact .num 1
      · rcases (isFree_add hbody.1 hbody.2).mp hy with hy | hy
        · exact .inl (isFree_var.mp hy)
        · exact .inr (List.mem_singleton.mpr (isFree_var.mp hy))
    · cases List.mem_singleton.mp hp
      exact .num 2
  have scope : ∀ x, e.IsFree x → x ∈ env.names := by
    intro x hx
    rcases (isFree_app he.1 he.2).mp hx with hx | hx <;> cases isFree_var.mp hx <;> decide
  have hv : Returns (inEnv? Watch.off · e env) (some (.num 3)) := ⟨[], by simp, 3, by rfl⟩
  obtain ⟨t, ht, h⟩ := bySubstitution_readback he henv scope
  obtain ⟨u, hu⟩ := (h Watch.off).1.mpr ⟨_, hv⟩
  exact ⟨he, henv, scope, t, u, ht, hu, (h Watch.off).2.1 u _ hu hv⟩

end EffectCalculus
