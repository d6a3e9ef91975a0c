import EffectCalculus.Proofs.Effect.Approximation
import EffectCalculus.Proofs.Effect.Typed

/-!
# Effects that defer

Readers and state programs, and layers of absence over them, record what is bound and mapped and do
nothing until they are run. Building such a computation comes to a datum at once; what matters is how
it goes on when it is run, both without a bound and within one.

* `Host.exists_bind_eq`: **a binder that was recorded** is called when the computation is run;
* `Host.proceed_map`: mapping goes on with the function called on the result, in every stack;
* `Host.exists_map_eq`: a function that was recorded is called when the computation is run;
* `Host.exists_within_eq`: **a reader for a changed environment** is run in it, and what follows has
  the former one again.
-/

namespace EffectCalculus

open Run Unbounded

variable {σ F P : Type}

/-- What follows a computation that was run in a changed environment: the environment is `env`
again. -/
def Continuation.restoring (κ : Continuation σ F P) (env : Datum F P) : Continuation σ F P :=
  fun v inputs => κ v (inputs.tail.cons env)

namespace Host

variable {host : Host σ F P} {e : Effect} {Q R : Datum F P → Prop} {d : Datum F P} {f : Fn F P}

/-- What follows a mapped computation: the function is called on the result. -/
noncomputable def applied (host : Host σ F P) (f : Fn F P) (κ : Continuation σ F P) :
    Continuation σ F P := fun v inputs =>
  host.does (.call f [v]) >>= fun v => κ v inputs

section Steady

variable (hs : host.Steady)

include hs

/-! ## Binding -/

omit hs in
/-- What comes after a task that comes to a datum at once. -/
theorem le_of_does_eq {t : Task F P} {k : Datum F P → Unbounded EffectError σ (Datum F P)}
    {u : Unbounded EffectError σ (Datum F P)} (ht : host.does t = pure d)
    (h : ∀ m, host.within m t >>= k ≤ u) : k d ≤ u := by
  intro w r hr
  have hw : host.does t w = some (.ok d, w) := by
    rw [ht]
    rfl
  obtain ⟨m, hm⟩ := exists_of_unbounded hw
  refine h m w r ?_
  rw [bind_apply, within, hm]
  exact hr

theorem exists_bind_pure (e : Effect) {Q : Datum F P → Prop} {d : Datum F P} {f : Fn F P}
    (he : e.defers = true) (hd : e.Shaped host Q d) (hf : f.callable = true) :
    ∃ d', host.does (.bind d f) = pure d' := by
  match e with
  | .reader =>
    obtain ⟨m, rfl, -⟩ := hd
    exact ⟨_, does_bind_reader hs m hf⟩
  | .state =>
    obtain ⟨m, rfl, -⟩ := hd
    exact ⟨_, does_bind_state hs m hf⟩
  | .maybe | .identity => exact nomatch he
  | .transformer _ .bare => exact hd.elim
  | .transformer .reader (.onto _ _) =>
    obtain ⟨m, rfl, -⟩ := hd
    exact ⟨_, does_bind_readerT hs _ m f⟩
  | .transformer .state (.onto _ _) =>
    obtain ⟨m, rfl, -⟩ := hd
    exact ⟨_, does_bind_stateT hs _ m f⟩
  | .transformer .maybe (.onto _ base) =>
    obtain ⟨c, rfl, hc⟩ := hd
    obtain ⟨c', hc'⟩ := exists_bind_pure base (f := .thenMaybe _ f) he hc rfl
    exact ⟨_, by rw [does_bind_maybeT hs, hc', pure_bind]⟩

/-- **A binder is recorded** without doing anything. When the computation is run, it is called, and
within a smaller bound. -/
theorem exists_bind_eq [Nonempty σ] (he : e.IsStack) (hdefers : e.defers = true)
    (hd : e.Shaped host Q d) (hf : host.Continues e R f) :
    ∃ d', host.does (.bind d f) = pure d' ∧ e.Shaped host R d' ∧
      (∀ inputs κ, host.proceed e d' inputs κ = host.proceed e d inputs (host.called e f κ)) ∧
      ∀ n inputs κ, proceedBy (host.within (n + 1)) e d' inputs κ ≤
        proceedBy (host.within (n + 1)) e d inputs (calledBy (host.within n) e f κ) := by
  obtain ⟨d', hd'⟩ := exists_bind_pure hs e hdefers hd hf.1
  refine ⟨d', hd', ?_, fun inputs κ => ?_, fun n inputs κ => ?_⟩
  · have hshape := bind_shaped hs e hd hf
    rw [hd'] at hshape
    exact hshape.of_pure
  · rw [← proceed_bind hs he hd hf, hd', pure_bind]
  · exact le_of_does_eq hd' fun m => bindsWithin hs he n (.inl hdefers) hd hf inputs κ

/-! ## Mapping -/

theorem called_unitAfter (he : e.IsStack) (f : Fn F P) (κ : Continuation σ F P) :
    host.called e (.unitAfter e f) κ = host.applied f κ := by
  funext v inputs
  rw [called, does_unitAfter hs, bind_assoc]
  exact congrArg _ (funext fun v => proceed_unit hs he v inputs κ)

/-- All but the plain reader map by binding. -/
theorem does_map_eq_bind (he : e.IsStack) (hreader : e ≠ .reader) (hd : e.Shaped host Q d)
    (hf : f.callable = true) :
    host.does (.map d f) = host.does (.bind d (.unitAfter e f)) := by
  rw [does_eq hs]
  cases he with
  | maybe =>
    obtain rfl | ⟨v, rfl, -⟩ := hd
    · rw [does_bind_nothing hs]
      exact unbounded_const _
    · rw [does_bind_some hs, does_unitAfter hs, bind_assoc]
      exact unbounded_task_bind_const hs _ _
  | reader => exact absurd rfl hreader
  | state =>
    obtain ⟨m, rfl, -⟩ := hd
    rw [does_bind_state hs m rfl]
    exact unbounded_const _
  | identity =>
    obtain ⟨v, rfl, -⟩ := hd
    simp only [Task.attempt, Comp.mapWith, hf, ↓reduceIte]
    rfl
  | layered layer =>
    cases layer <;>
    · obtain ⟨c, rfl, -⟩ := hd
      simp only [Task.attempt, Comp.mapWith, hf, ↓reduceIte]
      rfl

/-- **Mapping goes on with the function called on the result.** -/
theorem proceed_map (he : e.IsStack) (hd : e.Shaped host Q d) (hf : f.callable = true)
    (inputs : Inputs F P) (κ : Continuation σ F P) :
    (host.does (.map d f) >>= fun d => host.proceed e d inputs κ) =
      host.proceed e d inputs (host.applied f κ) := by
  by_cases hreader : e = .reader
  · subst hreader
    obtain ⟨m, rfl, -⟩ := hd
    rw [does_map_reader hs, pure_bind, proceed, does_runReader_map hs, bind_assoc]
    rfl
  · rw [does_map_eq_bind hs he hreader hd hf,
      proceed_bind hs he hd (unitAfter_continues hs f), called_unitAfter hs he]

/-- **A function is recorded** without doing anything. When the computation is run, it is called on
the result. -/
theorem exists_map_eq [Nonempty σ] (he : e.IsStack) (hdefers : e.defers = true)
    (hd : e.Shaped host Q d) (hf : f.callable = true)
    (hcall : ∀ v, Q v → host.Yields (.call f [v]) R) :
    ∃ d', host.does (.map d f) = pure d' ∧ e.Shaped host R d' ∧
      (∀ inputs κ, host.proceed e d' inputs κ = host.proceed e d inputs (host.applied f κ)) ∧
      ∀ n inputs κ, proceedBy (host.within (n + 1)) e d' inputs κ ≤
        proceedBy (host.within (n + 1)) e d inputs (host.applied f κ) := by
  have hshape := (yields_iff hs).mp (map_yields hs he hd hf hcall)
  have hproceed := proceed_map hs he hd hf
  by_cases hreader : e = .reader
  · subst hreader
    obtain ⟨m, rfl, -⟩ := hd
    have hmap := does_map_reader hs m f
    simp only [hmap, pure_bind] at hshape hproceed
    refine ⟨_, hmap, hshape.of_pure, hproceed, fun n inputs κ => ?_⟩
    rw [proceedBy, within_succ]
    simp only [Task.attempt, ReaderProg.runWith, result_bind, bind_assoc]
    refine bind_le_bind (le_refl (host.within (n + 1) (.runReader m inputs.head))) fun v => ?_
    exact bind_le_bind (within_le_does hs n _) fun v => le_refl _
  · obtain ⟨d', hd', -, -, hwithin⟩ := exists_bind_eq hs he hdefers hd (unitAfter_continues hs f)
    have hmap : host.does (.map d f) = pure d' := by
      rw [does_map_eq_bind hs he hreader hd hf, hd']
    simp only [hmap, pure_bind] at hshape hproceed
    refine ⟨d', hmap, hshape.of_pure, hproceed, fun n inputs κ => ?_⟩
    refine (hwithin n inputs κ).trans ?_
    rw [← called_unitAfter hs he]
    exact proceedBy_mono (fun _ => le_refl _) e d inputs (calledBy_within_le hs n _ κ)

/-! ## Changed environments -/

/-- **A reader for a changed environment** is made without doing anything. When it is run, the
function makes the environment, and what follows has the former one again. -/
theorem exists_within_eq (hreads : e.reads = true) (hd : e.Shaped host Q d) (f : Fn F P) :
    ∃ d', (d.asComp "local" >>= fun c => offer (c.within f) : Act σ (Datum F P)) = pure d' ∧
      e.Shaped host Q d' ∧
      (∀ inputs κ, host.proceed e d' inputs κ =
        host.does (.call f [inputs.head]) >>= fun env =>
          host.proceed e d (inputs.tail.cons env) (κ.restoring inputs.head)) ∧
      ∀ n inputs κ, proceedBy (host.within (n + 1)) e d' inputs κ ≤
        host.does (.call f [inputs.head]) >>= fun env =>
          proceedBy (host.within (n + 1)) e d (inputs.tail.cons env)
            (κ.restoring inputs.head) := by
  have hany : ∀ env, (host.does (.call f [env])).Ensures fun _ => True := fun _ _ _ _ _ => trivial
  match e with
  | .reader =>
    obtain ⟨m, rfl, hm⟩ := hd
    refine ⟨_, rfl, ⟨_, rfl, fun env => (yields_iff hs).mpr ?_⟩, fun inputs κ => ?_,
      fun n inputs κ => ?_⟩
    · rw [does_runReader_within hs]
      exact (hany env).bind fun env _ => (yields_iff hs).mp (hm env)
    · rw [proceed, does_runReader_within hs, bind_assoc]
      refine congrArg _ (funext fun env => congrArg _ (funext fun v => ?_))
      exact congrArg (κ v) (Stream'.eta inputs).symm
    · rw [proceedBy, within_succ]
      simp only [Task.attempt, ReaderProg.runWith, result_bind, bind_assoc]
      refine bind_le_bind (within_le_does hs n _) fun env => ?_
      refine bind_le_bind (le_refl (host.within (n + 1) (.runReader m env))) fun v => ?_
      exact le_of_eq (congrArg (κ v) (Stream'.eta inputs).symm)
  | .transformer .reader (.onto _ base) =>
    obtain ⟨m, rfl, hm⟩ := hd
    refine ⟨_, rfl, ⟨_, rfl, fun env => (yields_iff hs).mpr ?_⟩, fun inputs κ => ?_,
      fun n inputs κ => ?_⟩
    · rw [does_runReaderT_within hs]
      exact (hany env).bind fun env _ => (yields_iff hs).mp (hm env)
    · rw [proceed, does_runReaderT_within hs, bind_assoc]
      rfl
    · rw [proceedBy, within_succ]
      simp only [Task.attempt, ReaderTProg.runWith, result_bind, bind_assoc]
      refine bind_le_bind (within_le_does hs n _) fun env => ?_
      exact le_refl _
  | .transformer .reader .bare => exact hd.elim
  | .maybe | .state | .identity | .transformer .state _ | .transformer .maybe _ => cases hreads

end Steady

end Host

end EffectCalculus
