import EffectCalculus.Proofs.Term.Show
import EffectCalculus.Proofs.Value.Order

/-!
# Rendered values are read in one way

The rendering of a value says what the value is, up to the order of bindings, which it does not
show: they are sorted by name. Values inside an environment stand without parentheses, each in front
of the one that closes its binding.

* `render_closure_eq_ok`: the rendering of a closure from those of its sorted bindings and its body;
* `exists_render`: a well-formed value has a rendering;
* `Keyed.readOnce`: **unique reading**, up to the order of bindings;
* `render_closure_congr`, `Reordered.render_eq`: the order of bindings does not show;
* `render_unambiguous`: both written forms tell what was written.
-/

namespace EffectCalculus

open Text

/-! ## Parts -/

/-- The rendering of one binding. -/
def renderBinding (x s : String) : String := "(" ++ quoted x ++ "," ++ s ++ ")"

namespace Value

theorem renderEach_eq_map (env : Env) : renderEach env = env.map fun p => (p.1, p.2.render) := by
  induction env with
  | nil => rfl
  | cons p rest ih => rw [renderEach, ih, List.map_cons]

theorem sortByName_renderEach (env : Env) :
    sortByName (renderEach env) = renderEach (sortByName env) := by
  rw [renderEach_eq_map, renderEach_eq_map, sortByName_map]

theorem renderBindings_cons_eq_ok {x : String} {v : Value} {env : Env} {ts : List String} :
    renderBindings (renderEach ((x, v) :: env)) = .ok ts ↔
      ∃ s us, v.render = .ok s ∧ renderBindings (renderEach env) = .ok us ∧
        renderBinding x s :: us = ts := by
  simp [renderEach, renderBindings, renderBinding, Except.bind_eq_ok, pure, Except.pure]

theorem render_closure_eq_ok {env : Env} {x : String} {b : Term} {s : String} :
    (closure env x b).render = .ok s ↔
      ∃ ts t, renderBindings (renderEach (sortByName env)) = .ok ts ∧ b.render = .ok t ∧
        "VClo fromList [" ++ ",".intercalate ts ++ "] " ++ quoted x ++ " (" ++ t ++ ")" = s := by
  simp [render, sortByName_renderEach, Except.bind_eq_ok, pure, Except.pure]

/-! ## Every well-formed value is rendered -/

theorem exists_renderBindings {env : Env} (h : ∀ p ∈ env, ∃ s, p.2.render = .ok s) :
    ∃ ts, renderBindings (renderEach env) = .ok ts := by
  induction env with
  | nil => exact ⟨[], rfl⟩
  | cons p env ih =>
    obtain ⟨s, hs⟩ := h p List.mem_cons_self
    obtain ⟨us, hus⟩ := ih fun q hq => h q (List.mem_cons_of_mem _ hq)
    exact ⟨_, renderBindings_cons_eq_ok.mpr ⟨s, us, hs, hus, rfl⟩⟩

theorem WellFormed.exists_render {v : Value} (h : v.WellFormed) : ∃ s, v.render = .ok s := by
  induction h with
  | num n => exact ⟨_, rfl⟩
  | @closure env x b _ hb ih =>
    have hsorted : ∀ p ∈ sortByName env, ∃ s, p.2.render = .ok s := fun p hp =>
      ih p ((sortByName_perm env).mem_iff.mp hp)
    obtain ⟨ts, hts⟩ := exists_renderBindings hsorted
    obtain ⟨t, ht⟩ := b.render_ok_iff.mpr hb
    exact ⟨_, render_closure_eq_ok.mpr ⟨ts, t, hts, ht, rfl⟩⟩

/-! ## Unique reading -/

/-- In front of any text that does not go on with a digit, the value is read in one way up to the
order of bindings. -/
def ReadOnce (v : Value) : Prop :=
  ∀ {v' : Value} {s s' : String} {rest rest' : List Char}, v.render = .ok s → v'.render = .ok s' →
    v'.Keyed → Ended rest → Ended rest' → s.toList ++ rest = s'.toList ++ rest' →
    v.Reordered v' ∧ rest = rest'

theorem renderBinding_append_inj {x x' : String} {v v' : Value} {s s' : String}
    {rest rest' : List Char} (hv : v.ReadOnce) (hs : v.render = .ok s) (hs' : v'.render = .ok s')
    (hv' : v'.Keyed)
    (h : (renderBinding x s).toList ++ rest = (renderBinding x' s').toList ++ rest') :
    (x = x' ∧ v.Reordered v') ∧ rest = rest' := by
  have hname : (quoted x).toList ++ ',' :: (s.toList ++ ')' :: rest) =
      (quoted x').toList ++ ',' :: (s'.toList ++ ')' :: rest') := by
    simpa [renderBinding] using h
  obtain ⟨hx, hvalue⟩ := quoted_append_inj hname
  obtain ⟨hreordered, hrest⟩ := hv hs hs' hv' (ended_cons rfl _) (ended_cons rfl _)
    (List.cons.inj hvalue).2
  exact ⟨⟨hx, hreordered⟩, (List.cons.inj hrest).2⟩

/-- Each text with a comma in front. -/
def punctuated (ts : List String) : List Char := ts.flatMap fun t => ',' :: t.toList

theorem punctuated_cons (t : String) (ts : List String) :
    punctuated (t :: ts) = ',' :: (t.toList ++ punctuated ts) := by
  simp [punctuated]

theorem intercalate_cons (t : String) (ts : List String) :
    (",".intercalate (t :: ts)).toList = t.toList ++ punctuated ts := by
  induction ts generalizing t with
  | nil => simp [punctuated]
  | cons u ts ih => simp [String.intercalate_cons_cons, ih, punctuated_cons]

theorem punctuated_append_inj {env env' : Env} {ts ts' : List String} {rest rest' : List Char}
    (hts : renderBindings (renderEach env) = .ok ts)
    (hts' : renderBindings (renderEach env') = .ok ts') (henv : ∀ p ∈ env, p.2.ReadOnce)
    (henv' : ∀ p ∈ env', p.2.Keyed)
    (h : punctuated ts ++ ']' :: rest = punctuated ts' ++ ']' :: rest') :
    Bindings.InStep Reordered env env' ∧ rest = rest' := by
  induction env generalizing env' ts ts' with
  | nil =>
    cases hts
    cases env' with
    | nil =>
      cases hts'
      exact ⟨.nil, (List.cons.inj h).2⟩
    | cons q env' =>
      obtain ⟨s', us', -, -, rfl⟩ := renderBindings_cons_eq_ok.mp hts'
      simp [punctuated] at h
  | cons p env ih =>
    obtain ⟨s, us, hs, hus, rfl⟩ := renderBindings_cons_eq_ok.mp hts
    cases env' with
    | nil =>
      cases hts'
      simp [punctuated] at h
    | cons q env' =>
      obtain ⟨s', us', hs', hus', rfl⟩ := renderBindings_cons_eq_ok.mp hts'
      have hbinding : (renderBinding p.1 s).toList ++ (punctuated us ++ ']' :: rest) =
          (renderBinding q.1 s').toList ++ (punctuated us' ++ ']' :: rest') := by
        simpa [punctuated_cons] using h
      obtain ⟨hpq, hothers⟩ := renderBinding_append_inj (henv p List.mem_cons_self) hs hs'
        (henv' q List.mem_cons_self) hbinding
      obtain ⟨hstep, hrest⟩ := ih hus hus' (fun r hr => henv r (List.mem_cons_of_mem _ hr))
        (fun r hr => henv' r (List.mem_cons_of_mem _ hr)) hothers
      exact ⟨.cons hpq hstep, hrest⟩

theorem bindings_append_inj {env env' : Env} {ts ts' : List String} {rest rest' : List Char}
    (hts : renderBindings (renderEach env) = .ok ts)
    (hts' : renderBindings (renderEach env') = .ok ts') (henv : ∀ p ∈ env, p.2.ReadOnce)
    (henv' : ∀ p ∈ env', p.2.Keyed)
    (h : (",".intercalate ts).toList ++ ']' :: rest =
      (",".intercalate ts').toList ++ ']' :: rest') :
    Bindings.InStep Reordered env env' ∧ rest = rest' := by
  -- A comma in front of both makes every binding stand after a comma.
  refine punctuated_append_inj hts hts' henv henv' ?_
  cases env with
  | nil =>
    cases hts
    cases env' with
    | nil =>
      cases hts'
      exact h
    | cons q env' =>
      obtain ⟨s', us', -, -, rfl⟩ := renderBindings_cons_eq_ok.mp hts'
      simp [renderBinding] at h
  | cons p env =>
    obtain ⟨s, us, -, -, rfl⟩ := renderBindings_cons_eq_ok.mp hts
    cases env' with
    | nil =>
      cases hts'
      simp [renderBinding] at h
    | cons q env' =>
      obtain ⟨s', us', -, -, rfl⟩ := renderBindings_cons_eq_ok.mp hts'
      rw [intercalate_cons, intercalate_cons] at h
      rw [punctuated_cons, punctuated_cons]
      exact congrArg (',' :: ·) h

/-- Bindings that are in step once sorted make reordered closures. -/
theorem Reordered.of_inStep {env env' : Env} (henv : env.Distinct) (henv' : env'.Distinct)
    (h : Bindings.InStep Reordered (sortByName env) (sortByName env')) (x : String) (b : Term) :
    (Value.closure env x b).Reordered (Value.closure env' x b) := by
  have hsorted := sortByName_perm env
  have hsorted' := sortByName_perm env'
  refine .closure ?_ fun y v v' hv hv' => ?_
  · have hnames : (Bindings.names (sortByName env)).Perm (Bindings.names (sortByName env')) :=
      .of_eq h.names_eq
    exact (hsorted.map Prod.fst).symm.trans (hnames.trans (hsorted'.map Prod.fst))
  · rw [Bindings.find?_perm hsorted.symm henv] at hv
    rw [Bindings.find?_perm hsorted'.symm henv'] at hv'
    exact h.find? hv hv'

/-- **Unique reading of values.** -/
theorem Keyed.readOnce {v : Value} (h : v.Keyed) : v.ReadOnce := by
  induction h with
  | atom =>
    intro v' s s' rest rest' hs
    cases hs
  | num n =>
    intro v' s s' rest rest' hs hs' hv' hr hr' htext
    cases hs
    cases v' with
    | num m =>
      cases hs'
      have hvalue : (argument n).toList ++ rest = (argument m).toList ++ rest' := by
        simpa using htext
      obtain ⟨rfl, hrest⟩ := argument_append_inj hr hr' hvalue
      exact ⟨.num n, hrest⟩
    | closure env x b =>
      obtain ⟨ts, t, -, -, rfl⟩ := render_closure_eq_ok.mp hs'
      simp at htext
    | atom => cases hs'
  | @closure env x b henv _ ih =>
    intro v' s s' rest rest' hs hs' hv' hr hr' htext
    obtain ⟨ts, t, hts, ht, rfl⟩ := render_closure_eq_ok.mp hs
    cases hv' with
    | num m =>
      cases hs'
      simp at htext
    | atom => cases hs'
    | @closure env' x' b' henv' hbindings' =>
      obtain ⟨ts', t', hts', ht', rfl⟩ := render_closure_eq_ok.mp hs'
      have hlist : (",".intercalate ts).toList ++
          ']' :: ' ' :: ((quoted x).toList ++ ' ' :: '(' :: (t.toList ++ ')' :: rest)) =
          (",".intercalate ts').toList ++
            ']' :: ' ' :: ((quoted x').toList ++ ' ' :: '(' :: (t'.toList ++ ')' :: rest')) := by
        simpa using htext
      obtain ⟨hstep, hname⟩ := bindings_append_inj hts hts'
        (fun p hp => ih p ((sortByName_perm env).mem_iff.mp hp))
        (fun p hp => hbindings' p ((sortByName_perm env').mem_iff.mp hp)) hlist
      obtain ⟨rfl, hbody⟩ := quoted_append_inj (List.cons.inj hname).2
      simp only [List.cons.injEq, true_and] at hbody
      obtain ⟨rfl, hrest⟩ := b.readOnce ht ht' (ended_cons rfl _) (ended_cons rfl _) hbody
      exact ⟨.of_inStep henv henv' hstep x b, (List.cons.inj hrest).2⟩

/-! ## The order does not show -/

theorem renderEach_eq_of_inStep {env env' : Env}
    (h : Bindings.InStep (fun v v' => v.render = v'.render) env env') :
    renderEach env = renderEach env' := by
  induction h with
  | nil => rfl
  | @cons p q _ _ hpq _ ih =>
    obtain ⟨x, v⟩ := p
    obtain ⟨x', v'⟩ := q
    obtain ⟨rfl, hv⟩ : x = x' ∧ v.render = v'.render := hpq
    rw [renderEach, renderEach, ih, hv]

/-- The rendering of a closure is made of the renderings of its bindings, in the order of their
names. -/
theorem render_closure_congr {env env' : Env} (henv : env.Distinct) (henv' : env'.Distinct)
    (hnames : env.names.Perm env'.names)
    (h : ∀ y v v', env.find? y = some v → env'.find? y = some v' → v.render = v'.render)
    (x : String) (b : Term) : (closure env x b).render = (closure env' x b).render := by
  have hsorted := (sortByName_perm env).symm
  have hsorted' := (sortByName_perm env').symm
  have hstep : Bindings.InStep (fun v v' => v.render = v'.render) (sortByName env)
      (sortByName env') := by
    apply Bindings.InStep.of_find?
    · exact (hsorted.map Prod.fst).nodup_iff.mp henv
    · exact names_sortByName_eq hnames
    · intro y u u' hu hu'
      rw [← Bindings.find?_perm hsorted henv] at hu
      rw [← Bindings.find?_perm hsorted' henv'] at hu'
      exact h y u u' hu hu'
  simp only [render, sortByName_renderEach, renderEach_eq_of_inStep hstep]

theorem Reordered.render_eq {v v' : Value} (h : v.Reordered v') (hv : v.Keyed) (hv' : v'.Keyed) :
    v.render = v'.render := by
  induction h with
  | num => rfl
  | @closure env env' x b hnames _ ih =>
    cases hv with
    | closure henv hbindings =>
    cases hv' with
    | closure henv' hbindings' =>
    apply render_closure_congr henv henv' hnames
    intro y u u' hu hu'
    exact ih y u u' hu hu' (hbindings _ (Bindings.mem_of_find? hu))
      (hbindings' _ (Bindings.mem_of_find? hu'))

end Value

/-! ## Both written forms -/

/-- Well-formed terms and values have renderings. Those of two terms are equal only if the terms
are, positions included; those of two values are equal exactly if the values are, up to the order in
which environments inside them bind their names. -/
theorem render_unambiguous :
    (∀ e e' : Term, e.WellFormed → e'.WellFormed →
      ∃ s s', e.render = .ok s ∧ e'.render = .ok s' ∧ (s = s' ↔ e = e')) ∧
    (∀ v v' : Value, v.WellFormed → v'.WellFormed → v.Keyed → v'.Keyed →
      ∃ s s', v.render = .ok s ∧ v'.render = .ok s' ∧ (s = s' ↔ v.Reordered v')) := by
  constructor
  · intro e e' he he'
    obtain ⟨s, hs⟩ := e.render_ok_iff.mpr he
    obtain ⟨s', hs'⟩ := e'.render_ok_iff.mpr he'
    refine ⟨s, s', hs, hs', ?_, ?_⟩
    · rintro rfl
      exact Term.eq_of_render hs hs'
    · rintro rfl
      exact Except.ok.inj (hs.symm.trans hs')
  · intro v v' hv hv' hk hk'
    obtain ⟨s, hs⟩ := hv.exists_render
    obtain ⟨s', hs'⟩ := hv'.exists_render
    refine ⟨s, s', hs, hs', ?_, ?_⟩
    · rintro rfl
      have hend : Ended [] := trivial
      exact (hk.readOnce hs hs' hk' hend hend rfl).1
    · intro h
      exact Except.ok.inj (hs.symm.trans ((h.render_eq hk hk').trans hs'))

/-- Quotes and commas in a name do not pass for the ones around it, and the order of an environment
does not show. -/
theorem render_unambiguous_punctuation :
    (∃ s s', (Term.abs ⟨0, -1⟩ "\\" (.num ⟨0, 1⟩ (-2))).render = .ok s ∧
      (Term.abs ⟨0, -1⟩ "\"" (.num ⟨0, 1⟩ (-2))).render = .ok s' ∧ s ≠ s') ∧
    (∃ s, (Value.closure [("a", .num (-1)), ("b", .num 2)] "x" (.var .none "x")).render = .ok s ∧
      (Value.closure [("b", .num 2), ("a", .num (-1))] "x" (.var .none "x")).render = .ok s) ∧
    (∃ s s', (Value.closure [("a", .num (-1)), ("b", .num 2)] "x" (.var .none "x")).render = .ok s ∧
      (Value.closure [("a\",VNum (-1)),(\"b", .num 2)] "x" (.var .none "x")).render = .ok s' ∧
      s ≠ s') := by
  have hformed : ∀ env : Env, (∀ p ∈ env, ∃ n, p.2 = .num n) → Env.WellFormed env :=
    fun env h p hp => (h p hp).elim fun n hn => hn ▸ .num n
  have hkeyed : ∀ env : Env, (∀ p ∈ env, ∃ n, p.2 = .num n) → ∀ p ∈ env, p.2.Keyed :=
    fun env h p hp => (h p hp).elim fun n hn => hn ▸ .num n
  obtain ⟨hterms, hvalues⟩ := render_unambiguous
  refine ⟨?_, ?_, ?_⟩
  · obtain ⟨s, s', hs, hs', hiff⟩ := hterms (.abs ⟨0, -1⟩ "\\" (.num ⟨0, 1⟩ (-2)))
      (.abs ⟨0, -1⟩ "\"" (.num ⟨0, 1⟩ (-2))) (by decide) (by decide)
    exact ⟨s, s', hs, hs', fun h => absurd (hiff.mp h) (by decide)⟩
  · obtain ⟨s, s', hs, hs', hiff⟩ := hvalues
      (.closure [("a", .num (-1)), ("b", .num 2)] "x" (.var .none "x"))
      (.closure [("b", .num 2), ("a", .num (-1))] "x" (.var .none "x"))
      (.closure (hformed _ (by simp)) trivial) (.closure (hformed _ (by simp)) trivial)
      (.closure (by decide) (hkeyed _ (by simp))) (.closure (by decide) (hkeyed _ (by simp)))
    have hreordered : s = s' :=
      hiff.mpr (.of_perm (.swap _ _ _) (by decide) (hformed _ (by simp)) _ _)
    exact ⟨s, hs, hreordered ▸ hs'⟩
  · obtain ⟨s, s', hs, hs', hiff⟩ := hvalues
      (.closure [("a", .num (-1)), ("b", .num 2)] "x" (.var .none "x"))
      (.closure [("a\",VNum (-1)),(\"b", .num 2)] "x" (.var .none "x"))
      (.closure (hformed _ (by simp)) trivial) (.closure (hformed _ (by simp)) trivial)
      (.closure (by decide) (hkeyed _ (by simp))) (.closure (by decide) (hkeyed _ (by simp)))
    refine ⟨s, s', hs, hs', fun h => ?_⟩
    cases hiff.mp h with
    | closure hnames _ => exact absurd hnames.length_eq (by decide)

end EffectCalculus
