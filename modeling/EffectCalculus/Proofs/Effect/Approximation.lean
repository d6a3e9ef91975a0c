import EffectCalculus.Proofs.Effect.Bounded

/-!
# Going on within a bound

What a computation comes to is the limit of what it comes to within each bound. A bound on a bound
computation is a smaller bound on what its binder goes on with, so a computation that makes further
ones without end can be followed by induction on the bound.

* `Host.within`: what a task comes to within a bound;
* `proceedBy`: running a computation and going on with its result, where tasks are done in a given
  way; `Host.proceedBy_does`: without a bound this is `Host.proceed`;
* `Host.exists_proceedBy`: **whatever ends, ends within some bound**;
* `Host.bindsWithin`: **binding within a bound calls the binder within a smaller one**, by one lemma
  for each layer.
-/

namespace EffectCalculus

open Run Unbounded

variable {σ F P : Type}

/-- Runs a computation and goes on with its result, where `G` does the tasks. -/
def proceedBy (G : Task F P → Unbounded EffectError σ (Datum F P)) :
    Effect → Datum F P → Inputs F P → Continuation σ F P → Unbounded EffectError σ (Datum F P)
  | .maybe, .comp (.some v), inputs, κ => κ v inputs
  | .maybe, .comp .nothing, _, _ => pure (.comp .nothing)
  | .identity, .comp (.identity v), inputs, κ => κ v inputs
  | .reader, .comp (.reader m), inputs, κ =>
    G (.runReader m inputs.head) >>= fun v => κ v inputs
  | .state, .comp (.state m), inputs, κ =>
    G (.runState [] m inputs.head) >>= fun p => κ.paired p inputs.tail
  | .transformer .reader (.onto _ base), .comp (.readerT bases m), inputs, κ =>
    G (.runReaderT bases m inputs.head) >>= fun d =>
      proceedBy G base d inputs.tail fun v rest => κ v (rest.cons inputs.head)
  | .transformer .state (.onto _ base), .comp (.stateT bases m), inputs, κ =>
    G (.runStateT bases m inputs.head) >>= fun d => proceedBy G base d inputs.tail κ.paired
  | .transformer .maybe (.onto _ base), .comp (.maybeT _ d), inputs, κ =>
    proceedBy G base d inputs (κ.present base)
  | _, d, _, _ => Unbounded.fault (.unsupported "run" d.kind)

namespace Continuation

variable {κ κ' : Continuation σ F P} (h : ∀ v inputs, κ v inputs ≤ κ' v inputs)

include h

theorem paired_le (p : Datum F P) (inputs : Inputs F P) :
    κ.paired p inputs ≤ κ'.paired p inputs :=
  bind_le_bind (le_refl _) fun (s, v) => h v (inputs.cons s)

theorem present_le (base : Effect) (d : Datum F P) (inputs : Inputs F P) :
    κ.present base d inputs ≤ κ'.present base d inputs := by
  by_cases hd : ∃ v, d = .comp (.some v)
  · obtain ⟨v, rfl⟩ := hd
    exact h v inputs
  · have habsent : ∀ v, d ≠ .comp (.some v) := fun v hv => hd ⟨v, hv⟩
    rw [present_absent κ habsent, present_absent κ' habsent]

end Continuation

/-- What follows a bound computation, where `G` does the tasks. -/
def calledBy (G : Task F P → Unbounded EffectError σ (Datum F P)) (e : Effect) (f : Fn F P)
    (κ : Continuation σ F P) : Continuation σ F P := fun v inputs =>
  G (.call f [v]) >>= fun d => proceedBy G e d inputs κ

/-- What does the tasks and what follows may both end more often. -/
theorem proceedBy_mono {G G' : Task F P → Unbounded EffectError σ (Datum F P)}
    (hG : ∀ t, G t ≤ G' t) (e : Effect) (d : Datum F P) (inputs : Inputs F P)
    {κ κ' : Continuation σ F P} (hκ : ∀ v inputs, κ v inputs ≤ κ' v inputs) :
    proceedBy G e d inputs κ ≤ proceedBy G' e d inputs κ' := by
  fun_induction proceedBy G e d inputs κ generalizing κ' with
  | case1 v inputs κ => exact hκ v inputs
  | case2 => exact le_refl _
  | case3 v inputs κ => exact hκ v inputs
  | case4 m inputs κ => exact bind_le_bind (hG _) fun v => hκ v inputs
  | case5 m inputs κ =>
    exact bind_le_bind (hG _) fun p => Continuation.paired_le hκ p inputs.tail
  | case6 inner base bases m inputs κ ih =>
    exact bind_le_bind (hG _) fun d => ih d fun v rest => hκ v _
  | case7 inner base bases m inputs κ ih =>
    exact bind_le_bind (hG _) fun d => ih d (Continuation.paired_le hκ)
  | case8 inner base bases d inputs κ ih => exact ih (Continuation.present_le hκ base)
  | case9 => rw [proceedBy] <;> assumption

/-- The effects that record binders until a computation is run. -/
def Effect.defers : Effect → Bool
  | .reader | .state | .transformer .reader _ | .transformer .state _ => true
  | .maybe | .identity | .transformer .maybe .bare => false
  | .transformer .maybe (.onto _ base) => base.defers

namespace Host

variable {host : Host σ F P} {e : Effect} {Q R : Datum F P → Prop} {d : Datum F P} {f : Fn F P}
  {m n : Nat}

/-! ## Tasks within a bound -/

/-- What a task comes to within the bound `n`. -/
def within (host : Host σ F P) (n : Nat) (t : Task F P) : Unbounded EffectError σ (Datum F P) :=
  (perform host n t).result

theorem within_succ (n : Nat) (t : Task F P) :
    host.within (n + 1) t = (t.attempt host (perform host n)).result := rfl

/-- Nothing is done within the bound zero. -/
theorem within_zero_bind_le (t : Task F P) (k : Datum F P → Unbounded EffectError σ (Datum F P))
    (u : Unbounded EffectError σ (Datum F P)) : host.within 0 t >>= k ≤ u :=
  fun _ _ h => nomatch h

section Steady

variable (hs : host.Steady)

include hs

theorem within_mono (hmn : m ≤ n) (t : Task F P) : host.within m t ≤ host.within n t :=
  (perform_below hs hmn t).result_le

theorem within_le_does (n : Nat) (t : Task F P) : host.within n t ≤ host.does t :=
  result_le_unbounded (hs.rising (Follows.task t)) n

theorem within_ensures {t : Task F P} (h : host.Yields t Q) (n : Nat) :
    (host.within n t).Ensures Q :=
  ((yields_iff hs).mp h).of_le (within_le_does hs n t)

/-! ## Going on -/

theorem proceedBy_does (e : Effect) (d : Datum F P) (inputs : Inputs F P)
    (κ : Continuation σ F P) :
    proceedBy host.does e d inputs κ = host.proceed e d inputs κ := by
  fun_induction proceedBy host.does e d inputs κ with
  | case5 m inputs κ =>
    rw [proceed, does_runState hs, bind_assoc]
    rfl
  | case6 inner base bases m inputs κ ih => simp only [proceed, ih]
  | case7 inner base bases m inputs κ ih => simp only [proceed, ih]
  | case8 inner base bases d inputs κ ih => exact ih
  | case9 => rw [proceed] <;> assumption
  | _ => rfl

theorem proceedBy_within_le (n : Nat) (e : Effect) (d : Datum F P) (inputs : Inputs F P)
    (κ : Continuation σ F P) :
    proceedBy (host.within n) e d inputs κ ≤ host.proceed e d inputs κ := by
  rw [← proceedBy_does hs]
  exact proceedBy_mono (within_le_does hs n) e d inputs fun _ _ => le_refl _

/-- If a task and what follows end, they end within a common bound. -/
theorem exists_within_bind {t : Task F P}
    {k : Datum F P → Unbounded EffectError σ (Datum F P)}
    {k' : Nat → Datum F P → Unbounded EffectError σ (Datum F P)}
    (hmono : ∀ {m n}, m ≤ n → ∀ d, k' m d ≤ k' n d)
    (hk : ∀ d {w r}, k d w = some r → ∃ n, k' n d w = some r) {w : σ}
    {r : Except EffectError (Datum F P) × σ} (h : (host.does t >>= k) w = some r) :
    ∃ n, (host.within n t >>= k' n) w = some r := by
  rw [bind_apply] at h
  obtain ⟨⟨a, w'⟩, hw, h⟩ := Option.bind_eq_some_iff.mp h
  obtain ⟨m, hm⟩ := exists_of_unbounded hw
  cases a with
  | error err =>
    refine ⟨m, ?_⟩
    rw [bind_apply, within, hm]
    exact h
  | ok d =>
    obtain ⟨n, hn⟩ := hk d h
    refine ⟨max m n, ?_⟩
    rw [bind_apply, within_mono hs (Nat.le_max_left m n) t w _ hm]
    exact hmono (Nat.le_max_right m n) d w' r hn

/-- **Whatever ends, ends within some bound.** -/
theorem exists_proceedBy (e : Effect) (d : Datum F P) (inputs : Inputs F P)
    (κ : Continuation σ F P) {w : σ} {r : Except EffectError (Datum F P) × σ}
    (h : host.proceed e d inputs κ w = some r) :
    ∃ n, proceedBy (host.within n) e d inputs κ w = some r := by
  rw [← proceedBy_does hs] at h
  have hmono : ∀ {m n : Nat}, m ≤ n → ∀ (e : Effect) (d : Datum F P) (inputs : Inputs F P)
      (κ : Continuation σ F P),
      proceedBy (host.within m) e d inputs κ ≤ proceedBy (host.within n) e d inputs κ :=
    fun hmn e d inputs κ => proceedBy_mono (within_mono hs hmn) e d inputs fun _ _ => le_refl _
  fun_induction proceedBy host.does e d inputs κ generalizing w r with
  | case1 | case2 | case3 => exact ⟨0, h⟩
  | case4 | case5 => exact exists_within_bind hs (fun _ _ => le_refl _) (fun _ _ _ h => ⟨0, h⟩) h
  | case6 inner base bases m inputs κ ih =>
    exact exists_within_bind hs (fun hmn d => hmono hmn base d _ _) (fun d _ _ h => ih d h) h
  | case7 inner base bases m inputs κ ih =>
    exact exists_within_bind hs (fun hmn d => hmono hmn base d _ _) (fun d _ _ h => ih d h) h
  | case8 inner base bases d inputs κ ih => exact ih h
  | case9 =>
    refine ⟨0, ?_⟩
    rw [proceedBy] <;> assumption

theorem calledBy_within_le (n : Nat) (f : Fn F P) (κ : Continuation σ F P) (v : Datum F P)
    (inputs : Inputs F P) :
    calledBy (host.within n) e f κ v inputs ≤ host.called e f κ v inputs :=
  bind_le_bind (within_le_does hs n _) fun d => proceedBy_within_le hs n e d inputs κ

/-- What follows a bound computation is the least that is above all its approximations. -/
theorem called_le {κ : Continuation σ F P} {v : Datum F P} {inputs : Inputs F P}
    {u : Unbounded EffectError σ (Datum F P)}
    (h : ∀ n, calledBy (host.within n) e f κ v inputs ≤ u) :
    host.called e f κ v inputs ≤ u := by
  intro w r hr
  obtain ⟨n, hn⟩ := exists_within_bind hs
    (fun hmn d => proceedBy_mono (within_mono hs hmn) e d inputs fun _ _ => le_refl _)
    (fun d _ _ hd => exists_proceedBy hs e d inputs κ hd) hr
  exact h n w r hn

/-! ## Binders of the base -/

theorem thenReader_le {inner : Bases} {base : Effect}
    (hf : host.Continues (.transformer .reader (.onto inner base)) R f) (n : Nat)
    (env v : Datum F P) (rest : Inputs F P) (κ : Continuation σ F P) :
    calledBy (host.within n) base (.thenReader (.onto inner base) f env)
        (fun v rest => κ v (rest.cons env)) v rest ≤
      calledBy (host.within n) (.transformer .reader (.onto inner base)) f κ v (rest.cons env) := by
  cases n with
  | zero => exact within_zero_bind_le _ _ _
  | succ n =>
    unfold calledBy
    nth_rewrite 1 [within_succ]
    simp only [Task.attempt, Fn.callWith, result_bind, bind_assoc]
    refine (within_ensures hs (hf.2 v) n).bind_le_bind (within_mono hs n.le_succ _) fun d hd => ?_
    rw [hd.ensure, result_pure, pure_bind]
    obtain ⟨m, rfl, -⟩ := hd
    exact bind_le_bind (within_mono hs n.le_succ _) fun d => le_refl _

theorem thenState_le {inner : Bases} {base : Effect}
    (hf : host.Continues (.transformer .state (.onto inner base)) R f) (n : Nat)
    (p : Datum F P) (rest : Inputs F P) (κ : Continuation σ F P) :
    calledBy (host.within n) base (.thenState (.onto inner base) f) κ.paired p rest ≤
      (calledBy (host.within n) (.transformer .state (.onto inner base)) f κ).paired p rest := by
  cases n with
  | zero => exact within_zero_bind_le _ _ _
  | succ n =>
    unfold calledBy
    nth_rewrite 1 [within_succ]
    simp only [Task.attempt, Fn.callWith, result_bind, bind_assoc]
    refine bind_le_bind (le_refl _) fun p => ?_
    obtain ⟨s, v⟩ := p
    refine (within_ensures hs (hf.2 v) n).bind_le_bind (within_mono hs n.le_succ _) fun d hd => ?_
    rw [hd.ensure, result_pure, pure_bind]
    obtain ⟨m, rfl, -⟩ := hd
    exact bind_le_bind (within_mono hs n.le_succ _) fun d => le_refl _

theorem thenMaybe_le {inner : Bases} {base : Effect} (hb : base.IsStack)
    (hf : host.Continues (.transformer .maybe (.onto inner base)) R f) (n : Nat)
    (o : Datum F P) (rest : Inputs F P) (κ : Continuation σ F P) :
    calledBy (host.within n) base (.thenMaybe (.onto inner base) f) (κ.present base) o rest ≤
      (calledBy (host.within n) (.transformer .maybe (.onto inner base)) f κ).present base o
        rest := by
  by_cases ho : ∃ v, o = .comp (.some v)
  · obtain ⟨v, rfl⟩ := ho
    cases n with
    | zero => exact within_zero_bind_le _ _ _
    | succ n =>
      unfold calledBy
      nth_rewrite 1 [within_succ]
      simp only [Task.attempt, Fn.callWith, result_bind, bind_assoc]
      refine (within_ensures hs (hf.2 v) n).bind_le_bind (within_mono hs n.le_succ _) fun d hd => ?_
      rw [hd.ensure, result_pure, pure_bind]
      obtain ⟨c, rfl, -⟩ := hd
      exact le_refl _
  · have habsent : ∀ v, o ≠ .comp (.some v) := fun v hv => ho ⟨v, hv⟩
    rw [Continuation.present_absent _ habsent]
    refine (calledBy_within_le hs n _ _ o rest).trans (le_of_eq ?_)
    rw [called, does_thenMaybe_absent hs _ _ habsent]
    exact proceed_unit hs hb (.comp .nothing) rest _

/-! ## Binding -/

/-- Within the bound `n + 1`, binding in the effect calls the binder within the bound `n`. Where the
effect defers, only running counts, and not the bound within which the binder was recorded. -/
def BindsWithin (host : Host σ F P) (n : Nat) (e : Effect) : Prop :=
  ∀ ⦃Q R : Datum F P → Prop⦄ ⦃d : Datum F P⦄ ⦃f : Fn F P⦄ ⦃m : Nat⦄,
    e.defers = true ∨ m ≤ n + 1 →
    e.Shaped host Q d → host.Continues e R f → ∀ (inputs : Inputs F P) (κ : Continuation σ F P),
    (host.within m (.bind d f) >>= fun d => proceedBy (host.within (n + 1)) e d inputs κ) ≤
      proceedBy (host.within (n + 1)) e d inputs (calledBy (host.within n) e f κ)

omit hs in
/-- It is enough to look at the first step of binding. -/
theorem BindsWithin.of_attempt (h : ∀ ⦃Q R : Datum F P → Prop⦄ ⦃d : Datum F P⦄ ⦃f : Fn F P⦄
    ⦃m : Nat⦄, e.defers = true ∨ m ≤ n → e.Shaped host Q d → host.Continues e R f →
    ∀ (inputs : Inputs F P) (κ : Continuation σ F P),
    (((Task.bind d f).attempt host (perform host m)).result >>= fun d =>
        proceedBy (host.within (n + 1)) e d inputs κ) ≤
      proceedBy (host.within (n + 1)) e d inputs (calledBy (host.within n) e f κ)) :
    host.BindsWithin n e := by
  intro Q R d f m hmn hd hf inputs κ
  cases m with
  | zero => exact within_zero_bind_le _ _ _
  | succ m => exact h (hmn.imp_right Nat.le_of_succ_le_succ) hd hf inputs κ

theorem bindsWithin_maybe (n : Nat) : host.BindsWithin n .maybe := by
  refine .of_attempt fun Q R d f m hmn hd hf inputs κ => ?_
  obtain ⟨⟨⟩⟩ | hmn := hmn
  obtain rfl | ⟨v, rfl, -⟩ := hd
  · exact le_refl _
  · simp only [Task.attempt, Comp.bindWith, result_bind, bind_assoc]
    refine (within_ensures hs (hf.2 v) m).bind_le_bind (within_mono hs hmn _) fun d hd => ?_
    rw [hd.ensure, result_pure, pure_bind]
    obtain rfl | ⟨v, rfl, -⟩ := hd <;> exact le_refl _

theorem bindsWithin_identity (n : Nat) : host.BindsWithin n .identity := by
  refine .of_attempt fun Q R d f m hmn hd hf inputs κ => ?_
  obtain ⟨⟨⟩⟩ | hmn := hmn
  obtain ⟨v, rfl, -⟩ := hd
  simp only [Task.attempt, Comp.bindWith, result_bind, bind_assoc]
  refine (within_ensures hs (hf.2 v) m).bind_le_bind (within_mono hs hmn _) fun d hd => ?_
  rw [hd.ensure, result_pure, pure_bind]
  obtain ⟨v, rfl, -⟩ := hd
  exact le_refl _

theorem bindsWithin_reader (n : Nat) : host.BindsWithin n .reader := by
  refine .of_attempt fun Q R d f m hmn hd hf inputs κ => ?_
  obtain ⟨p, rfl, -⟩ := hd
  simp only [Task.attempt, Comp.bindWith, hf.1, ↓reduceIte, result_pure, pure_bind, proceedBy]
  rw [within_succ]
  simp only [Task.attempt, ReaderProg.runWith, result_bind, bind_assoc]
  refine bind_le_bind (le_refl (host.within (n + 1) (.runReader p inputs.head))) fun v => ?_
  refine (within_ensures hs (hf.2 v) n).bind_le_bind (le_refl _) fun d hd => ?_
  obtain ⟨p, rfl, -⟩ := hd
  exact le_refl _

theorem bindsWithin_state (n : Nat) : host.BindsWithin n .state := by
  refine .of_attempt fun Q R d f m hmn hd hf inputs κ => ?_
  obtain ⟨p, rfl, -⟩ := hd
  simp only [Task.attempt, Comp.bindWith, hf.1, ↓reduceIte, result_pure, pure_bind, proceedBy]
  have happend := (perform_runState_append hs n [] f p inputs.head).result_le
  refine (bind_le_bind happend fun _ => le_refl _).trans ?_
  rw [result_bind, bind_assoc]
  refine bind_le_bind (le_refl _) fun p => ?_
  simp only [lastBinder, result_bind, bind_assoc]
  refine bind_le_bind (le_refl _) fun p => ?_
  obtain ⟨s, v⟩ := p
  refine (within_ensures hs (hf.2 v) n).bind_le_bind (le_refl _) fun d hd => ?_
  obtain ⟨p, rfl, -⟩ := hd
  exact le_refl _

variable {inner : Bases} {base : Effect}

theorem BindsWithin.readerT (h : host.BindsWithin n base) :
    host.BindsWithin n (.transformer .reader (.onto inner base)) := by
  refine .of_attempt fun Q R d f m hmn hd hf inputs κ => ?_
  obtain ⟨p, rfl, hp⟩ := hd
  simp only [Task.attempt, Comp.bindWith, result_pure, pure_bind, proceedBy]
  rw [within_succ]
  simp only [Task.attempt, ReaderTProg.runWith, result_bind, bind_assoc]
  refine (within_ensures hs (hp inputs.head) (n + 1)).bind_le_bind (le_refl _)
    fun c hc => ?_
  refine (h (.inr n.le_succ) hc (hf.thenReader hs _) _ _).trans ?_
  exact proceedBy_mono (fun _ => le_refl _) base c _ fun v rest =>
    thenReader_le hs hf n inputs.head v rest κ

theorem BindsWithin.stateT (h : host.BindsWithin n base) :
    host.BindsWithin n (.transformer .state (.onto inner base)) := by
  refine .of_attempt fun Q R d f m hmn hd hf inputs κ => ?_
  obtain ⟨p, rfl, hp⟩ := hd
  simp only [Task.attempt, Comp.bindWith, result_pure, pure_bind, proceedBy]
  rw [within_succ]
  simp only [Task.attempt, StateTProg.runWith, result_bind, bind_assoc]
  refine (within_ensures hs (hp inputs.head) (n + 1)).bind_le_bind (le_refl _)
    fun c hc => ?_
  refine (h (.inr n.le_succ) hc (hf.thenState hs) _ _).trans ?_
  exact proceedBy_mono (fun _ => le_refl _) base c _ fun p rest => thenState_le hs hf n p rest κ

theorem BindsWithin.maybeT (hb : base.IsStack) (h : host.BindsWithin n base) :
    host.BindsWithin n (.transformer .maybe (.onto inner base)) := by
  refine .of_attempt fun Q R d f m hmn hd hf inputs κ => ?_
  obtain ⟨c, rfl, hc⟩ := hd
  simp only [Task.attempt, Comp.bindWith, Bases.base?, result_bind, result_pure, bind_assoc,
    pure_bind, proceedBy]
  refine (h (hmn.imp_right Nat.le_succ_of_le) hc (hf.thenMaybe hs) _ _).trans ?_
  exact proceedBy_mono (fun _ => le_refl _) base c _ fun o rest =>
    thenMaybe_le hs hb hf n o rest κ

/-- **Binding within a bound calls the binder within a smaller one**, in every effect stack. -/
theorem bindsWithin (he : e.IsStack) (n : Nat) : host.BindsWithin n e := by
  induction he with
  | maybe => exact bindsWithin_maybe hs n
  | identity => exact bindsWithin_identity hs n
  | reader => exact bindsWithin_reader hs n
  | state => exact bindsWithin_state hs n
  | layered layer _ hb ih =>
    cases layer with
    | reader => exact ih.readerT hs
    | state => exact ih.stateT hs
    | maybe => exact ih.maybeT hs hb

end Steady

end Host

end EffectCalculus
