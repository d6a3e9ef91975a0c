import EffectCalculus.Proofs.Effect.Plan

/-!
# Reading, state and failure in several effects

Plans on an environment can be told in the plain reader effect or in the reader transformer over a
base, plans on a state in the plain state effect or in the state transformer over a base. A state
that may be lost to a failure comes from two transformers, one over the other's effect.

* `Dialect.reader`, `Dialect.readerOver`, `Dialect.state`, `Dialect.stateOver`: the plain effects and
  the transformers over any base;
* `plain_agrees_over_identity`: **identity as base recovers the plain effects**;
* `Dialect.stateOverMaybe`, `Dialect.maybeOverState`: the two ways of stacking state and failure;
* `Plan.Ends`: how a plan runs, up to its result or its first failure;
* `stackings_agree`: **the two ways differ only in what they keep of the state after a failure**.
-/

namespace EffectCalculus

open Run Unbounded

variable {σ F Φ K P : Type}

/-! ## Operations -/

section Operations

variable {base : Effect}

theorem ask_means :
    Recipe.Means (σ := σ) (F := F) (P := P) .reader (fun _ => pure (.comp (.reader .ask)))
      fun inputs κ => κ inputs.head (inputs.tail.cons inputs.head) := by
  refine .of_pure (fun hs => ⟨_, rfl, fun _ _ _ _ _ => trivial⟩) fun hs inputs κ => ?_
  rw [Host.proceed, Host.does_runReader_ask hs, pure_bind]
  exact congrArg (κ inputs.head) (Stream'.eta inputs).symm

theorem askT_means (hb : base.IsStack) :
    Recipe.Means (σ := σ) (F := F) (P := P) (.transformer .reader (.onto .bare base))
      (fun _ => offer (Effect.ask (.transformer .reader (.onto .bare base))))
      fun inputs κ => κ inputs.head (inputs.tail.cons inputs.head) := by
  refine .of_pure (fun hs => ⟨_, rfl, fun env => (Host.yields_iff hs).mpr ?_⟩)
    fun hs inputs κ => ?_
  · rw [Host.does_runReaderT_ask hs]
    exact Host.unit_shaped hs base trivial
  · rw [Host.proceed, Host.does_runReaderT_ask hs]
    exact Host.proceed_unit hs hb inputs.head inputs.tail _

/-- A single step that goes from each state to a new one, with a result. -/
theorem step_means {step : StateStep F P} (next v : Datum F P → Datum F P)
    (h : ∀ (go : Performer σ F P) s, step.runWith go s = pure (next s, v s)) :
    Recipe.Means (σ := σ) .state (fun _ => pure (.comp (.state (.step step))))
      fun inputs κ => κ (v inputs.head) (inputs.tail.cons (next inputs.head)) := by
  have hpasses : ∀ {host : Host σ F P}, host.Steady → ∀ s,
      host.passes (.step step) s = pure (next s, v s) := by
    intro host hs s
    rw [Host.passes_step hs]
    simp only [h]
    exact Host.unbounded_const _
  refine .of_pure (fun hs => ⟨_, rfl, fun s => (Host.yields_runState_iff hs _ s).mpr ?_⟩)
    fun hs inputs κ => ?_
  · rw [hpasses hs]
    exact Ensures.pure trivial
  · rw [Host.proceed, hpasses hs, pure_bind]

/-- The same for a step of the state transformer. -/
theorem stepT_means (hb : base.IsStack) {m : StateTProg F P} (next v : Datum F P → Datum F P)
    (h : ∀ (go : Performer σ F P) s, m.runWith go (.onto .bare base) s =
      unitOf base (.tuple [next s, v s])) :
    Recipe.Means (σ := σ) (.transformer .state (.onto .bare base))
      (fun _ => pure (.comp (.stateT (.onto .bare base) m)))
      fun inputs κ => κ (v inputs.head) (inputs.tail.cons (next inputs.head)) := by
  have hdoes : ∀ {host : Host σ F P}, host.Steady → ∀ s,
      host.does (.runStateT (.onto .bare base) m s) =
        (unitOf base (.tuple [next s, v s])).result := by
    intro host hs s
    rw [Host.does_eq hs]
    simp only [Task.attempt, h]
    exact Host.unbounded_const _
  refine .of_pure (fun hs => ⟨_, rfl, fun s => (Host.yields_iff hs).mpr ?_⟩) fun hs inputs κ => ?_
  · rw [hdoes hs]
    exact Host.unit_shaped hs base ⟨_, _, rfl, trivial⟩
  · rw [Host.proceed, hdoes hs]
    refine (Host.proceed_unit hs hb _ inputs.tail _).trans ?_
    exact pure_bind _ _

theorem stateGet_means :
    Recipe.Means (σ := σ) (F := F) (P := P) .state (fun _ => pure (.comp (.state (.step .get))))
      fun inputs κ => κ inputs.head (inputs.tail.cons inputs.head) :=
  step_means id id fun _ _ => rfl

theorem statePut_means (v : Datum F P) :
    Recipe.Means (σ := σ) .state (fun _ => pure (.comp (.state (.step (.put v)))))
      fun inputs κ => κ .null (inputs.tail.cons v) :=
  step_means (fun _ => v) (fun _ => .null) fun _ _ => rfl

theorem stateGetT_means (hb : base.IsStack) :
    Recipe.Means (σ := σ) (F := F) (P := P) (.transformer .state (.onto .bare base))
      (fun _ => offer (Effect.get (.transformer .state (.onto .bare base))))
      fun inputs κ => κ inputs.head (inputs.tail.cons inputs.head) :=
  stepT_means hb id id fun _ _ => rfl

theorem statePutT_means (hb : base.IsStack) (v : Datum F P) :
    Recipe.Means (σ := σ) (.transformer .state (.onto .bare base))
      (fun _ => offer (Effect.put (.transformer .state (.onto .bare base)) v))
      fun inputs κ => κ .null (inputs.tail.cons v) :=
  stepT_means hb (fun _ => v) (fun _ => .null) fun _ _ => rfl

/-- A computation of the base means the same when it is lifted into a layer of absence. -/
theorem lift_means (hb : base.IsStack) (hdefers : base.defers = true) {d : Datum F P}
    {μ : Inputs F P → Continuation σ F P → Unbounded EffectError σ (Datum F P)}
    (hd : Recipe.Means base (fun _ => pure d) μ) :
    Recipe.Means (.transformer .maybe (.onto .bare base))
      (fun go => Effect.lift go (.transformer .maybe (.onto .bare base)) d) μ := by
  have hlift : ∀ go : Performer σ F P,
      Effect.lift go (.transformer .maybe (.onto .bare base)) d =
        d.ensure .lift base >>= fun c => go (.map c .present) >>= fun inner =>
          pure (.comp (.maybeT (.onto .bare base) inner)) := by
    intro go
    simp only [Effect.lift, Effect.base, Bases.base?, ofExcept_ok, pure_bind]
  simp only [hlift]
  refine ⟨(Follows.const _).bind fun c => (Follows.task _).bind fun _ => Follows.const _, ?_⟩
  intro _ host hs
  obtain ⟨d', hbuilt, hshaped, hproceed⟩ := hd.built hs
  obtain rfl : d' = d := by
    have hpure : host.unbounded (fun _ => pure d) = pure d := Host.unbounded_const _
    have hself : (pure d : Unbounded EffectError σ _).Ensures (d' = ·) := by
      rw [← hpure, hbuilt]
      exact Ensures.pure rfl
    exact hself.of_pure
  obtain ⟨inner, hmap, hinner, hpasses, -⟩ :=
    Host.exists_map_eq hs hb hdefers hshaped (f := .present) (R := IsOptional fun _ => True) rfl
      fun v _ => by
        rw [Host.yields_iff hs, Host.does_present hs]
        exact Ensures.pure (.inr ⟨v, rfl, trivial⟩)
  refine ⟨_, ?_, ⟨inner, rfl, hinner⟩, fun inputs κ => ?_⟩
  · simp only [hshaped.ensure, pure_bind]
    rw [Host.unbounded_task_bind_const hs, hmap, pure_bind, result_pure]
  · rw [Host.proceed, hpasses, ← hproceed]
    refine congrArg _ (funext fun v => funext fun rest => ?_)
    rw [Host.applied, Host.does_present hs, pure_bind]
    rfl

/-- A failure that is lifted into a state layer goes nowhere, and the state is lost. -/
theorem lift_nothing_means :
    Recipe.Means (σ := σ) (F := F) (P := P) (.transformer .state (.onto .bare .maybe))
      (fun go => Effect.lift go (.transformer .state (.onto .bare .maybe)) (.comp .nothing))
      fun _ _ => pure (.comp .nothing) := by
  have hdoes : ∀ {host : Host σ F P}, host.Steady → ∀ s,
      host.does (.runStateT (.onto .bare .maybe) (.lift (.comp .nothing)) s) =
        pure (.comp .nothing) := by
    intro host hs s
    rw [Host.does_runStateT_lift hs, Host.does_eq hs]
    exact Host.unbounded_const _
  refine .of_pure (fun hs => ⟨_, rfl, fun s => (Host.yields_iff hs).mpr ?_⟩) fun hs inputs κ => ?_
  · rw [hdoes hs]
    exact Ensures.pure (.inl rfl)
  · rw [Host.proceed, hdoes hs, pure_bind]
    rfl

/-- The absent computation over a state goes nowhere, and the state is kept. -/
theorem absent_means :
    Recipe.Means (σ := σ) (F := F) (P := P) (.transformer .maybe (.onto .bare .state))
      (fun _ => offer (Effect.absent (.transformer .maybe (.onto .bare .state))))
      fun inputs _ => pure (.tuple [inputs.head, .comp .nothing]) := by
  refine .of_pure (fun hs => ⟨_, rfl, _, rfl, fun s => (Host.yields_runState_iff hs _ s).mpr ?_⟩)
    fun hs inputs κ => ?_
  · rw [Host.passes_pure hs]
    exact Ensures.pure (.inl rfl)
  · rw [Host.proceed, Host.proceed, Host.passes_pure hs, pure_bind]
    rfl

end Operations

/-! ## The plain effects and the transformers over a base -/

namespace Dialect

variable {base : Effect}

def reader : Dialect σ Φ K P .environment where
  effect := .reader
  stack := .reader
  defers := rfl
  reads _ := rfl
  lost _ := .null
  look _ := pure (.comp (.reader .ask))
  put h := nomatch h
  fail h := nomatch h
  look_means := ask_means
  put_means h := nomatch h
  fail_means h := nomatch h

def readerOver (hb : base.IsStack) : Dialect σ Φ K P .environment where
  effect := .transformer .reader (.onto .bare base)
  stack := .layered .reader .bare hb
  defers := rfl
  reads _ := rfl
  lost _ := .null
  look _ := offer (Effect.ask (.transformer .reader (.onto .bare base)))
  put h := nomatch h
  fail h := nomatch h
  look_means := askT_means hb
  put_means h := nomatch h
  fail_means h := nomatch h

def state : Dialect σ Φ K P .state where
  effect := .state
  stack := .state
  defers := rfl
  reads h := nomatch h
  lost _ := .null
  look _ := pure (.comp (.state (.step .get)))
  put _ v _ := pure (.comp (.state (.step (.put v))))
  fail h := nomatch h
  look_means := stateGet_means
  put_means _ v := statePut_means v
  fail_means h := nomatch h

def stateOver (hb : base.IsStack) : Dialect σ Φ K P .state where
  effect := .transformer .state (.onto .bare base)
  stack := .layered .state .bare hb
  defers := rfl
  reads h := nomatch h
  lost _ := .null
  look _ := offer (Effect.get (.transformer .state (.onto .bare base)))
  put _ v _ := offer (Effect.put (.transformer .state (.onto .bare base)) v)
  fail h := nomatch h
  look_means := stateGetT_means hb
  put_means _ v := statePutT_means hb v
  fail_means h := nomatch h

/-! ## State and failure -/

/-- State over failure: a failure is lifted from the base. -/
def stateOverMaybe : Dialect σ Φ K P .fallible where
  effect := .transformer .state (.onto .bare .maybe)
  stack := .layered .state .bare .maybe
  defers := rfl
  reads h := nomatch h
  lost _ := .comp .nothing
  look _ := offer (Effect.get (.transformer .state (.onto .bare .maybe)))
  put _ v _ := offer (Effect.put (.transformer .state (.onto .bare .maybe)) v)
  fail _ go := Effect.lift go (.transformer .state (.onto .bare .maybe)) (.comp .nothing)
  look_means := stateGetT_means .maybe
  put_means _ v := statePutT_means .maybe v
  fail_means _ := lift_nothing_means

/-- Failure over state: the operations on the state are lifted from the base. -/
def maybeOverState : Dialect σ Φ K P .fallible where
  effect := .transformer .maybe (.onto .bare .state)
  stack := .layered .maybe .bare .state
  defers := rfl
  reads h := nomatch h
  lost inputs := .tuple [inputs.head, .comp .nothing]
  look go := Effect.lift go (.transformer .maybe (.onto .bare .state)) (.comp (.state (.step .get)))
  put _ v go :=
    Effect.lift go (.transformer .maybe (.onto .bare .state)) (.comp (.state (.step (.put v))))
  fail _ _ := offer (Effect.absent (.transformer .maybe (.onto .bare .state)))
  look_means := lift_means .state rfl stateGet_means
  put_means _ v := lift_means .state rfl (statePut_means v)
  fail_means _ := absent_means

end Dialect

/-! ## Identity as base -/

/-- Two dialects agree if they put the same final datum together. -/
theorem Plan.runIn_agree {c : Cell} (cb : Callbacks σ Φ K P c) {D D' : Dialect σ Φ K P c}
    (h : ∀ rest p, D.final rest p = D'.final rest p) (m : Plan Φ K P c)
    (inputs : Inputs (Φ ⊕ K) P) : Agree (m.runIn cb D inputs) (m.runIn cb D' inputs) := by
  rw [agree_iff (m.rising_runIn cb D inputs) (m.rising_runIn cb D' inputs),
    m.unbounded_runIn cb D, m.unbounded_runIn cb D']
  simp only [h]

/-- **Identity as base recovers the plain effects.** Told in the reader transformer over identity and
in the plain reader, a plan ends together in every environment, in the same way, with the same
result or the same error of a callback, and after the same actions of the callbacks. So does a plan
on a state from every initial state, and the final state is the same too. -/
theorem plain_agrees_over_identity :
    (∀ (cb : Callbacks σ Φ K P .environment) (m : Plan Φ K P .environment) (env : Item Φ K P)
      (rest : Inputs (Φ ⊕ K) P),
      Agree (m.runIn cb (.readerOver .identity) (rest.cons env))
        (m.runIn cb .reader (rest.cons env))) ∧
    (∀ (cb : Callbacks σ Φ K P .state) (m : Plan Φ K P .state) (s : Item Φ K P)
      (rest : Inputs (Φ ⊕ K) P),
      Agree (m.runIn cb (.stateOver .identity) (rest.cons s))
        (m.runIn cb .state (rest.cons s))) := by
  constructor
  · intro cb m env rest
    refine m.runIn_agree cb (fun rest p => ?_) (rest.cons env)
    obtain ⟨s, _ | v⟩ := p <;> rfl
  · intro cb m s rest
    refine m.runIn_agree cb (fun rest p => ?_) (rest.cons s)
    obtain ⟨s, _ | v⟩ := p <;> rfl

/-! ## The first failure -/

namespace Plan

/-- How a plan runs from a state and a world. It ends in a state and a world, with a result; or
without one, when it first fails, in the state that is in force then, and nothing follows. -/
inductive Ends (cb : Callbacks σ Φ K P .fallible) : Plan Φ K P .fallible → Item Φ K P → σ →
    Item Φ K P → Option (Item Φ K P) → σ → Prop
  | unit (v s : Item Φ K P) (w : σ) : Ends cb (.unit v) s w s (some v) w
  | look (s : Item Φ K P) (w : σ) : Ends cb .look s w s (some s) w
  | put (h : Cell.fallible.writes = true) (v s : Item Φ K P) (w : σ) :
    Ends cb (.put h v) s w v (some .null) w
  | fail (h : Cell.fallible.fails = true) (s : Item Φ K P) (w : σ) :
    Ends cb (.fail h) s w s none w
  | map {m : Plan Φ K P .fallible} {f : Φ} {s s₁ v v₁ : Item Φ K P} {w w₁ w₂ : σ}
      (hm : Ends cb m s w s₁ (some v) w₁) (hf : cb.function f v w₁ = (.done v₁, w₂)) :
    Ends cb (.map m f) s w s₁ (some v₁) w₂
  | mapFailed {m : Plan Φ K P .fallible} (f : Φ) {s s₁ : Item Φ K P} {w w₁ : σ}
      (hm : Ends cb m s w s₁ none w₁) :
    Ends cb (.map m f) s w s₁ none w₁
  | bind {m next : Plan Φ K P .fallible} {k : K} {s s₁ s₂ v : Item Φ K P}
      {r : Option (Item Φ K P)} {w w₁ w₂ w₃ : σ} (hm : Ends cb m s w s₁ (some v) w₁)
      (hk : cb.binder k v w₁ = (.done next, w₂)) (hnext : Ends cb next s₁ w₂ s₂ r w₃) :
    Ends cb (.bind m k) s w s₂ r w₃
  | bindFailed {m : Plan Φ K P .fallible} (k : K) {s s₁ : Item Φ K P} {w w₁ : σ}
      (hm : Ends cb m s w s₁ none w₁) :
    Ends cb (.bind m k) s w s₁ none w₁
  | andThen {m next : Plan Φ K P .fallible} {s s₁ s₂ v : Item Φ K P}
      {r : Option (Item Φ K P)} {w w₁ w₂ : σ} (hm : Ends cb m s w s₁ (some v) w₁)
      (hnext : Ends cb next s₁ w₁ s₂ r w₂) :
    Ends cb (.andThen m next) s w s₂ r w₂
  | andThenFailed {m : Plan Φ K P .fallible} (next : Plan Φ K P .fallible) {s s₁ : Item Φ K P}
      {w w₁ : σ} (hm : Ends cb m s w s₁ none w₁) :
    Ends cb (.andThen m next) s w s₁ none w₁

variable {cb : Callbacks σ Φ K P .fallible} {m : Plan Φ K P .fallible} {s s' : Item Φ K P}
  {r : Option (Item Φ K P)} {w w' : σ}

theorem direct_mono {n N : Nat} (hnN : n ≤ N) (h : m.direct cb n s w = (.done (s', r), w')) :
    m.direct cb N s w = (.done (s', r), w') := by
  have hbelow : Below (m.direct cb n s) (m.direct cb N s) := m.rising_direct cb s hnN
  rw [hbelow w (by simp [h]), h]

theorem ends_of_direct (n : Nat) (h : m.direct cb n s w = (.done (s', r), w')) :
    m.Ends cb s w s' r w' := by
  induction n generalizing m s s' r w w' with
  | zero => cases h
  | succ n ih =>
    induction m generalizing s s' r w w' with
    | unit v =>
      cases h
      exact .unit v s w
    | look =>
      cases h
      exact .look s w
    | put hw v =>
      cases h
      exact .put hw v s w
    | fail hf =>
      cases h
      exact .fail hf s w
    | within hc => cases hc
    | map m f ihm =>
      obtain ⟨⟨s₁, _ | v⟩, w₁, hm, hnext⟩ := Run.bind_eq_done.mp h
      · cases hnext
        exact .mapFailed f (ihm hm)
      · obtain ⟨v₁, w₂, hf, hend⟩ := Run.bind_eq_done.mp hnext
        cases hend
        exact .map (ihm hm) hf
    | bind m k ihm =>
      obtain ⟨⟨s₁, _ | v⟩, w₁, hm, hnext⟩ := Run.bind_eq_done.mp h
      · cases hnext
        exact .bindFailed k (ihm hm)
      · obtain ⟨next, w₂, hk, hend⟩ := Run.bind_eq_done.mp hnext
        exact .bind (ihm hm) hk (ih hend)
    | andThen m next ihm ihnext =>
      obtain ⟨⟨s₁, _ | v⟩, w₁, hm, hend⟩ := Run.bind_eq_done.mp h
      · cases hend
        exact .andThenFailed next (ihm hm)
      · exact .andThen (ihm hm) (ihnext hend)

theorem Ends.direct (h : m.Ends cb s w s' r w') :
    ∃ n, m.direct cb (n + 1) s w = (.done (s', r), w') := by
  induction h with
  | unit | look | put | fail => exact ⟨0, rfl⟩
  | map _ hf ih =>
    obtain ⟨n, hn⟩ := ih
    exact ⟨n, Run.bind_eq_done.mpr ⟨_, _, hn, Run.bind_eq_done.mpr ⟨_, _, hf, rfl⟩⟩⟩
  | mapFailed _ _ ih | bindFailed _ _ ih | andThenFailed _ _ ih =>
    obtain ⟨n, hn⟩ := ih
    exact ⟨n, Run.bind_eq_done.mpr ⟨_, _, hn, rfl⟩⟩
  | bind _ hk _ ihm ihnext =>
    obtain ⟨n₁, hm⟩ := ihm
    obtain ⟨n₂, hnext⟩ := ihnext
    have hm' := direct_mono (show n₁ + 1 ≤ max n₁ (n₂ + 1) + 1 by omega) hm
    have hnext' := direct_mono (show n₂ + 1 ≤ max n₁ (n₂ + 1) by omega) hnext
    exact ⟨max n₁ (n₂ + 1),
      Run.bind_eq_done.mpr ⟨_, _, hm', Run.bind_eq_done.mpr ⟨_, _, hk, hnext'⟩⟩⟩
  | andThen _ _ ihm ihnext =>
    obtain ⟨n₁, hm⟩ := ihm
    obtain ⟨n₂, hnext⟩ := ihnext
    have hm' := direct_mono (show n₁ + 1 ≤ max n₁ n₂ + 1 by omega) hm
    have hnext' := direct_mono (show n₂ + 1 ≤ max n₁ n₂ + 1 by omega) hnext
    exact ⟨max n₁ n₂, Run.bind_eq_done.mpr ⟨_, _, hm', hnext'⟩⟩

/-- The direct meaning ends as the plan does. -/
theorem settles_direct_iff :
    Settles (fun n => m.direct cb n s) w (.done (s', r)) w' ↔ m.Ends cb s w s' r w' := by
  constructor
  · rintro ⟨-, n, hn⟩
    exact ends_of_direct n hn
  · intro h
    obtain ⟨n, hn⟩ := h.direct
    exact ⟨by simp, n + 1, hn⟩

/-! ## The two stackings -/

variable (inputs : Inputs (Φ ⊕ K) P)

theorem settles_stateOverMaybe_some {s₁ v : Item Φ K P} :
    Settles (m.runIn cb .stateOverMaybe inputs) w (.done (.comp (.some (.tuple [s₁, v])))) w' ↔
      m.Ends cb inputs.head w s₁ (some v) w' := by
  rw [settles_done_iff]
  constructor
  · rintro ⟨⟨s', _ | v'⟩, hp, hfinal⟩
    · cases hfinal
    · cases hfinal
      exact settles_direct_iff.mp hp
  · intro h
    exact ⟨_, settles_direct_iff.mpr h, rfl⟩

theorem settles_stateOverMaybe_nothing :
    Settles (m.runIn cb .stateOverMaybe inputs) w (.done (.comp .nothing)) w' ↔
      ∃ s₁, m.Ends cb inputs.head w s₁ none w' := by
  rw [settles_done_iff]
  constructor
  · rintro ⟨⟨s', _ | v'⟩, hp, hfinal⟩
    · exact ⟨s', settles_direct_iff.mp hp⟩
    · cases hfinal
  · rintro ⟨s₁, h⟩
    exact ⟨_, settles_direct_iff.mpr h, rfl⟩

theorem settles_maybeOverState {s₁ : Item Φ K P} :
    Settles (m.runIn cb .maybeOverState inputs) w
        (.done (.tuple [s₁, .comp (.ofOptional r)])) w' ↔
      m.Ends cb inputs.head w s₁ r w' := by
  rw [settles_done_iff]
  constructor
  · rintro ⟨⟨s', r'⟩, hp, hfinal⟩
    cases r <;> cases r' <;> cases hfinal <;> exact settles_direct_iff.mp hp
  · intro h
    refine ⟨_, settles_direct_iff.mpr h, ?_⟩
    cases r <;> rfl

end Plan

/-- **The two ways of stacking state and failure** differ only in what they keep of the state after a
failure. State over failure ends with a present pair exactly if failure over state ends with the same
state and the same result present. It ends with an absent result exactly if failure over state does
so in some state. This is the state in force at the first failure, in the world of this moment: no
callback runs after it. And the errors of callbacks are the same. -/
theorem stackings_agree (cb : Callbacks σ Φ K P .fallible) (m : Plan Φ K P .fallible)
    (s : Item Φ K P) (rest : Inputs (Φ ⊕ K) P) (w w' : σ) :
    (∀ s₁ v,
      Settles (m.runIn cb .stateOverMaybe (rest.cons s)) w
          (.done (.comp (.some (.tuple [s₁, v])))) w' ↔
        Settles (m.runIn cb .maybeOverState (rest.cons s)) w
          (.done (.tuple [s₁, .comp (.some v)])) w') ∧
    (Settles (m.runIn cb .stateOverMaybe (rest.cons s)) w (.done (.comp .nothing)) w' ↔
      ∃ s₁, Settles (m.runIn cb .maybeOverState (rest.cons s)) w
        (.done (.tuple [s₁, .comp .nothing])) w') ∧
    (∀ s₁,
      Settles (m.runIn cb .maybeOverState (rest.cons s)) w
          (.done (.tuple [s₁, .comp .nothing])) w' ↔
        m.Ends cb s w s₁ none w') ∧
    (∀ err,
      Settles (m.runIn cb .stateOverMaybe (rest.cons s)) w (.fault err) w' ↔
        Settles (m.runIn cb .maybeOverState (rest.cons s)) w (.fault err) w') := by
  have hpresent : ∀ s₁ v, Settles (m.runIn cb .maybeOverState (rest.cons s)) w
      (.done (.tuple [s₁, .comp (.some v)])) w' ↔ m.Ends cb s w s₁ (some v) w' :=
    fun s₁ v => Plan.settles_maybeOverState (r := some v) (rest.cons s)
  have hfailed : ∀ s₁, Settles (m.runIn cb .maybeOverState (rest.cons s)) w
      (.done (.tuple [s₁, .comp .nothing])) w' ↔ m.Ends cb s w s₁ none w' :=
    fun s₁ => Plan.settles_maybeOverState (r := none) (rest.cons s)
  refine ⟨fun s₁ v => ?_, ?_, hfailed, fun err => ?_⟩
  · rw [hpresent]
    exact Plan.settles_stateOverMaybe_some (rest.cons s)
  · simp only [hfailed]
    exact Plan.settles_stateOverMaybe_nothing (rest.cons s)
  · rw [Plan.settles_fault_iff, Plan.settles_fault_iff]

/-- A binder that writes 5 and fails if it gets 0, and gives back anything else. From the state 0,
what was to follow is never written: the one stacking keeps the 5, the other keeps nothing. -/
example :
    let cb : Callbacks Unit Empty Unit Empty .fallible :=
      { function := nofun
        binder := fun _ v => match v with
          | .int 0 => return .andThen (.put rfl (.int 5)) (.fail rfl)
          | v => return .unit v }
    let m : Plan Empty Unit Empty .fallible := .andThen (.bind .look ()) (.put rfl (.int 9))
    m.runIn cb .stateOverMaybe (Stream'.const (.int 0)) 9 () = (.done (.comp .nothing), ()) ∧
    m.runIn cb .maybeOverState (Stream'.const (.int 0)) 9 () =
      (.done (.tuple [.int 5, .comp .nothing]), ()) ∧
    m.runIn cb .stateOverMaybe (Stream'.const (.int 3)) 9 () =
      (.done (.comp (.some (.tuple [.int 9, .null]))), ()) :=
  ⟨rfl, rfl, rfl⟩

end EffectCalculus
