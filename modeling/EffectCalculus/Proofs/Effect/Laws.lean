import EffectCalculus.Proofs.Effect.Direct
import EffectCalculus.Proofs.Effect.Stack

/-!
# The laws of effect stacks

Binding in an effect stack has the unit of the stack as its unit on both sides, and it is
associative, where computations are compared by their complete runs.

The computations of a stack differ in how they bind: some call the binder at once, some record it,
some check its result. Said with what comes afterwards, they are all alike: `Host.proceed` runs a
computation and hands its result, with the states reached, to a continuation.

* `Host.proceed_unit`: the unit goes on with its value;
* `Host.proceed_bind`: **binding composes continuations**, layer by layer;
* `Host.unbounded_complete`: a complete run is `Host.proceed` with the continuation that only puts
  the final datum together;
* `stack_bind_laws`: the three laws.
-/

namespace EffectCalculus

open Run Unbounded

variable {σ F P : Type}

/-- The final datum of a complete run: the result `v`, with the states that the layers have reached
and marked as present below the layers of absence. -/
def Effect.seal : Effect → Datum F P → Inputs F P → Datum F P
  | .maybe, v, _ => .comp (.some v)
  | .identity, v, _ => v
  | .reader, v, _ => v
  | .state, v, inputs => .tuple [inputs.head, v]
  | .transformer _ .bare, v, _ => v
  | .transformer .reader (.onto _ base), v, inputs => base.seal v inputs.tail
  | .transformer .state (.onto _ base), v, inputs =>
    base.seal (.tuple [inputs.head, v]) inputs.tail
  | .transformer .maybe (.onto _ base), v, inputs => base.seal (.comp (.some v)) inputs

/-- What follows a result and the inputs as they stand then: each state layer has its present state
there. -/
abbrev Continuation (σ F P : Type) :=
  Datum F P → Inputs F P → Unbounded EffectError σ (Datum F P)

/-- What follows an optional result in a layer of absence over `base`. -/
def Continuation.present (base : Effect) (κ : Continuation σ F P) : Continuation σ F P
  | .comp (.some v), inputs => κ v inputs
  | _, inputs => pure (base.seal (.comp .nothing) inputs)

theorem Continuation.present_absent {base : Effect} (κ : Continuation σ F P) {d : Datum F P}
    (hd : ∀ v, d ≠ .comp (.some v)) (inputs : Inputs F P) :
    κ.present base d inputs = pure (base.seal (.comp .nothing) inputs) := by
  cases d with
  | comp c =>
    cases c with
    | some v => exact absurd rfl (hd v)
    | _ => rfl
  | _ => rfl

/-- What follows a pair in a state layer: the state is put in front of the inputs. -/
def Continuation.paired (κ : Continuation σ F P) : Continuation σ F P := fun p inputs => do
  let (s, v) ← (Run.ofExcept p.pair).result
  κ v (inputs.cons s)

/-- Runs a computation and goes on with its result. An absent result goes nowhere. -/
noncomputable def Host.proceed (host : Host σ F P) :
    Effect → Datum F P → Inputs F P → Continuation σ F P → Unbounded EffectError σ (Datum F P)
  | .maybe, .comp (.some v), inputs, κ => κ v inputs
  | .maybe, .comp .nothing, _, _ => pure (.comp .nothing)
  | .identity, .comp (.identity v), inputs, κ => κ v inputs
  | .reader, .comp (.reader m), inputs, κ =>
    host.does (.runReader m inputs.head) >>= fun v => κ v inputs
  | .state, .comp (.state m), inputs, κ =>
    host.passes m inputs.head >>= fun (s, v) => κ v (inputs.tail.cons s)
  | .transformer .reader (.onto _ base), .comp (.readerT bases m), inputs, κ =>
    host.does (.runReaderT bases m inputs.head) >>= fun d =>
      host.proceed base d inputs.tail fun v rest => κ v (rest.cons inputs.head)
  | .transformer .state (.onto _ base), .comp (.stateT bases m), inputs, κ =>
    host.does (.runStateT bases m inputs.head) >>= fun d =>
      host.proceed base d inputs.tail κ.paired
  | .transformer .maybe (.onto _ base), .comp (.maybeT _ d), inputs, κ =>
    host.proceed base d inputs (κ.present base)
  | _, d, _, _ => Unbounded.fault (.unsupported "run" d.kind)

variable {host : Host σ F P} {e : Effect} {Q R : Datum F P → Prop} {d : Datum F P} {f : Fn F P}

/-! ## Shapes -/

theorem Effect.Shaped.exists_effect (hd : e.Shaped host Q d) :
    ∃ c, d = .comp c ∧ c.effect = e := by
  match e with
  | .maybe =>
    obtain rfl | ⟨v, rfl, -⟩ := hd
    · exact ⟨_, rfl, rfl⟩
    · exact ⟨_, rfl, rfl⟩
  | .identity | .reader | .state
  | .transformer .reader (.onto _ _)
  | .transformer .state (.onto _ _)
  | .transformer .maybe (.onto _ _) =>
    obtain ⟨_, rfl, -⟩ := hd
    exact ⟨_, rfl, rfl⟩
  | .transformer _ .bare => exact hd.elim

/-- The checks on the way let computations of the right shape pass. -/
theorem Effect.Shaped.ensure (hd : e.Shaped host Q d) (slot : Slot) :
    (d.ensure slot e : Act σ (Datum F P)) = pure d := by
  obtain ⟨c, rfl, rfl⟩ := hd.exists_effect
  simp [Datum.ensure, Datum.isA, Effect.isA_refl]

/-- The unit of a layer of absence is the unit of its base on a present result. -/
theorem unitOf_maybeT (inner : Bases) (base : Effect) (v : Datum F P) :
    (unitOf (.transformer .maybe (.onto inner base)) v : Act σ (Datum F P)) =
      unitOf base (.comp (.some v)) >>= fun d => pure (.comp (.maybeT (.onto inner base) d)) := by
  have hunit : (Effect.transformer .maybe (.onto inner base)).unit v =
      base.unit (.comp (.some v)) >>= fun c => pure (.maybeT (.onto inner base) (.comp c)) := rfl
  simp only [unitOf, hunit]
  cases base.unit (.comp (.some v) : Datum F P) <;> rfl

/-- The binder can be called, and what it gives has the shape of the effect. -/
def Host.Continues (host : Host σ F P) (e : Effect) (R : Datum F P → Prop) (f : Fn F P) : Prop :=
  f.callable = true ∧ ∀ v, host.Yields (.call f [v]) (e.Shaped host R)

namespace Host

section Steady

variable (hs : host.Steady)

include hs

theorem Continues.ensures (hf : host.Continues e R f) (v : Datum F P) :
    (host.does (.call f [v])).Ensures (e.Shaped host R) :=
  (yields_iff hs).mp (hf.2 v)

theorem passes_pure (v s : Datum F P) : host.passes (.step (.pure v)) s = pure (s, v) := by
  rw [passes_step hs]
  exact unbounded_const _

/-- The results of a state program are the second parts of the pairs that it gives. -/
theorem yields_runState_iff (m : StateProg F P) (s : Datum F P) :
    host.Yields (.runState [] m s) (IsPair Q) ↔ (host.passes m s).Ensures fun p => Q p.2 := by
  rw [yields_iff hs, does_runState hs]
  constructor
  · intro h w p w' hp
    obtain ⟨s', v, hd, hv⟩ := h w (.tuple [p.1, p.2]) w' (by rw [bind_apply, hp]; rfl)
    cases hd
    exact hv
  · intro h
    refine h.bind fun p hp => ?_
    exact Ensures.pure ⟨p.1, p.2, rfl, hp⟩

/-- The unit has the shape of its effect. -/
theorem unit_shaped (e : Effect) {Q : Datum F P → Prop} {v : Datum F P} (hv : Q v) :
    (unitOf e v : Act σ (Datum F P)).result.Ensures (e.Shaped host Q) := by
  match e with
  | .maybe => exact Ensures.pure (.inr ⟨v, rfl, hv⟩)
  | .identity => exact Ensures.pure ⟨v, rfl, hv⟩
  | .reader =>
    refine Ensures.pure ⟨_, rfl, fun env => (yields_iff hs).mpr ?_⟩
    rw [does_runReader_pure hs]
    exact Ensures.pure hv
  | .state =>
    refine Ensures.pure ⟨_, rfl, fun s => (yields_runState_iff hs _ s).mpr ?_⟩
    rw [passes_pure hs]
    exact Ensures.pure hv
  | .transformer _ .bare => exact Ensures.fault _
  | .transformer .reader (.onto inner base) =>
    refine Ensures.pure ⟨_, rfl, fun env => (yields_iff hs).mpr ?_⟩
    rw [does_runReaderT_pure hs]
    exact unit_shaped base hv
  | .transformer .state (.onto inner base) =>
    refine Ensures.pure ⟨_, rfl, fun s => (yields_iff hs).mpr ?_⟩
    rw [does_runStateT_pure hs]
    exact unit_shaped base ⟨s, v, rfl, hv⟩
  | .transformer .maybe (.onto inner base) =>
    rw [unitOf_maybeT, result_bind]
    have hsome : IsOptional Q (.comp (.some v)) := .inr ⟨v, rfl, hv⟩
    refine (unit_shaped base hsome).bind fun d hd => ?_
    exact Ensures.pure ⟨d, rfl, hd⟩

theorem unitAfter_continues (f : Fn F P) : host.Continues e (fun _ => True) (.unitAfter e f) := by
  refine ⟨rfl, fun v => (yields_iff hs).mpr ?_⟩
  rw [does_unitAfter hs]
  have hany : (host.does (.call f [v])).Ensures fun _ => True := fun _ _ _ _ => trivial
  exact hany.bind fun v _ => unit_shaped hs e trivial

/-! ## Going on in the base -/

theorem Continues.thenReader {inner : Bases} {base : Effect}
    (hf : host.Continues (.transformer .reader (.onto inner base)) R f) (env : Datum F P) :
    host.Continues base R (.thenReader (.onto inner base) f env) := by
  refine ⟨rfl, fun v => (yields_iff hs).mpr ?_⟩
  rw [does_thenReader hs]
  refine (hf.ensures hs v).bind fun d hd => ?_
  rw [hd.ensure, result_pure, pure_bind]
  obtain ⟨m, rfl, hm⟩ := hd
  exact (yields_iff hs).mp (hm env)

theorem Continues.thenState {inner : Bases} {base : Effect}
    (hf : host.Continues (.transformer .state (.onto inner base)) R f) :
    host.Continues base (IsPair R) (.thenState (.onto inner base) f) := by
  refine ⟨rfl, fun p => (yields_iff hs).mpr ?_⟩
  rw [does_thenState hs]
  have hpair : (Run.ofExcept p.pair : Act σ _).result.Ensures fun _ => True :=
    fun _ _ _ _ => trivial
  refine hpair.bind fun (s, v) _ => (hf.ensures hs v).bind fun d hd => ?_
  rw [hd.ensure, result_pure, pure_bind]
  obtain ⟨m, rfl, hm⟩ := hd
  exact (yields_iff hs).mp (hm s)

theorem Continues.thenMaybe {inner : Bases} {base : Effect}
    (hf : host.Continues (.transformer .maybe (.onto inner base)) R f) :
    host.Continues base (IsOptional R) (.thenMaybe (.onto inner base) f) := by
  refine ⟨rfl, fun o => (yields_iff hs).mpr ?_⟩
  by_cases ho : ∃ v, o = .comp (.some v)
  · obtain ⟨v, rfl⟩ := ho
    rw [does_thenMaybe_some hs]
    refine (hf.ensures hs v).bind fun d hd => ?_
    rw [hd.ensure, result_pure, pure_bind]
    obtain ⟨c, rfl, hc⟩ := hd
    exact Ensures.pure hc
  · rw [does_thenMaybe_absent hs _ _ fun v hv => ho ⟨v, hv⟩]
    exact unit_shaped hs base (.inl rfl)

/-- Binding keeps the shape. -/
theorem bind_shaped (e : Effect) {Q R : Datum F P → Prop} {d : Datum F P} {f : Fn F P}
    (hd : e.Shaped host Q d) (hf : host.Continues e R f) :
    (host.does (.bind d f)).Ensures (e.Shaped host R) := by
  match e with
  | .maybe =>
    obtain rfl | ⟨v, rfl, -⟩ := hd
    · rw [does_bind_nothing hs]
      exact Ensures.pure (.inl rfl)
    · rw [does_bind_some hs]
      refine (hf.ensures hs v).bind fun d hd => ?_
      rw [hd.ensure]
      exact Ensures.pure hd
  | .identity =>
    obtain ⟨v, rfl, -⟩ := hd
    rw [does_bind_identity hs]
    refine (hf.ensures hs v).bind fun d hd => ?_
    rw [hd.ensure]
    exact Ensures.pure hd
  | .reader =>
    obtain ⟨m, rfl, hm⟩ := hd
    rw [does_bind_reader hs m hf.1]
    refine Ensures.pure ⟨_, rfl, fun env => (yields_iff hs).mpr ?_⟩
    rw [does_runReader_bind hs]
    refine ((yields_iff hs).mp (hm env)).bind fun v _ => (hf.ensures hs v).bind fun d hd => ?_
    obtain ⟨m, rfl, hm⟩ := hd
    exact (yields_iff hs).mp (hm env)
  | .state =>
    obtain ⟨m, rfl, hm⟩ := hd
    rw [does_bind_state hs m hf.1]
    refine Ensures.pure ⟨_, rfl, fun s => (yields_runState_iff hs _ s).mpr ?_⟩
    rw [passes_bind hs]
    refine ((yields_runState_iff hs m s).mp (hm s)).bind fun (s, v) _ => ?_
    refine (hf.ensures hs v).bind fun d hd => ?_
    obtain ⟨m, rfl, hm⟩ := hd
    exact (yields_runState_iff hs m s).mp (hm s)
  | .transformer _ .bare => exact hd.elim
  | .transformer .reader (.onto inner base) =>
    obtain ⟨m, rfl, hm⟩ := hd
    rw [does_bind_readerT hs]
    refine Ensures.pure ⟨_, rfl, fun env => (yields_iff hs).mpr ?_⟩
    rw [does_runReaderT_bind hs]
    exact ((yields_iff hs).mp (hm env)).bind fun d hd =>
      bind_shaped base hd (hf.thenReader hs env)
  | .transformer .state (.onto inner base) =>
    obtain ⟨m, rfl, hm⟩ := hd
    rw [does_bind_stateT hs]
    refine Ensures.pure ⟨_, rfl, fun s => (yields_iff hs).mpr ?_⟩
    rw [does_runStateT_bind hs]
    exact ((yields_iff hs).mp (hm s)).bind fun d hd => bind_shaped base hd (hf.thenState hs)
  | .transformer .maybe (.onto inner base) =>
    obtain ⟨c, rfl, hc⟩ := hd
    rw [does_bind_maybeT hs]
    refine (bind_shaped base hc (hf.thenMaybe hs)).bind fun d hd => ?_
    exact Ensures.pure ⟨d, rfl, hd⟩

/-! ## Continuations -/

/-- The unit goes on with its value. -/
theorem proceed_unit (he : e.IsStack) (v : Datum F P) (inputs : Inputs F P)
    (κ : Continuation σ F P) :
    ((unitOf e v : Act σ (Datum F P)).result >>= fun d => host.proceed e d inputs κ) =
      κ v inputs := by
  induction he generalizing v inputs κ with
  | maybe | identity => exact pure_bind _ _
  | reader =>
    refine (pure_bind _ _).trans ?_
    rw [proceed, does_runReader_pure hs, pure_bind]
  | state =>
    refine (pure_bind _ _).trans ?_
    rw [proceed, passes_pure hs, pure_bind]
    exact congrArg (κ v) (Stream'.eta inputs)
  | @layered layer inner base h ih =>
    cases layer with
    | reader =>
      refine (pure_bind _ _).trans ?_
      rw [proceed, does_runReaderT_pure hs]
      refine (ih v inputs.tail _).trans ?_
      exact congrArg (κ v) (Stream'.eta inputs)
    | state =>
      refine (pure_bind _ _).trans ?_
      rw [proceed, does_runStateT_pure hs]
      refine (ih (.tuple [inputs.head, v]) inputs.tail _).trans ?_
      refine (pure_bind _ _).trans ?_
      exact congrArg (κ v) (Stream'.eta inputs)
    | maybe =>
      rw [unitOf_maybeT, result_bind, bind_assoc]
      exact ih (.comp (.some v)) inputs _

/-- What follows a computation matters only on its results. -/
theorem proceed_congr (e : Effect) {Q : Datum F P → Prop} {d : Datum F P}
    (hd : e.Shaped host Q d) (inputs : Inputs F P) {κ κ' : Continuation σ F P}
    (hκ : ∀ v, Q v → κ v = κ' v) : host.proceed e d inputs κ = host.proceed e d inputs κ' := by
  match e with
  | .maybe =>
    obtain rfl | ⟨v, rfl, hv⟩ := hd
    · rfl
    · exact congrFun (hκ v hv) inputs
  | .identity =>
    obtain ⟨v, rfl, hv⟩ := hd
    exact congrFun (hκ v hv) inputs
  | .reader =>
    obtain ⟨m, rfl, hm⟩ := hd
    exact ((yields_iff hs).mp (hm _)).bind_congr fun v hv => congrFun (hκ v hv) inputs
  | .state =>
    obtain ⟨m, rfl, hm⟩ := hd
    exact ((yields_runState_iff hs m _).mp (hm _)).bind_congr fun (s, v) hv =>
      congrFun (hκ v hv) _
  | .transformer _ .bare => exact hd.elim
  | .transformer .reader (.onto inner base) =>
    obtain ⟨m, rfl, hm⟩ := hd
    refine ((yields_iff hs).mp (hm _)).bind_congr fun d hd => ?_
    refine proceed_congr base hd inputs.tail fun v hv => ?_
    rw [hκ v hv]
  | .transformer .state (.onto inner base) =>
    obtain ⟨m, rfl, hm⟩ := hd
    refine ((yields_iff hs).mp (hm _)).bind_congr fun d hd => ?_
    refine proceed_congr base hd inputs.tail fun p hp => ?_
    obtain ⟨s, v, rfl, hv⟩ := hp
    exact funext fun rest => congrFun (hκ v hv) (rest.cons s)
  | .transformer .maybe (.onto inner base) =>
    obtain ⟨c, rfl, hc⟩ := hd
    refine proceed_congr base hc inputs fun o ho => ?_
    obtain rfl | ⟨v, rfl, hv⟩ := ho
    · rfl
    · exact hκ v hv

/-- What follows a bound computation: the binder is called, and what it gives goes on. -/
noncomputable def called (host : Host σ F P) (e : Effect) (f : Fn F P) (κ : Continuation σ F P) :
    Continuation σ F P := fun v inputs =>
  host.does (.call f [v]) >>= fun d => host.proceed e d inputs κ

/-- **Binding composes continuations.** The binder of the base, made from `f`, goes on in the base
as `f` goes on in the layer above. -/
theorem proceed_bind (he : e.IsStack) (hd : e.Shaped host Q d) (hf : host.Continues e R f)
    (inputs : Inputs F P) (κ : Continuation σ F P) :
    (host.does (.bind d f) >>= fun d => host.proceed e d inputs κ) =
      host.proceed e d inputs (host.called e f κ) := by
  induction he generalizing Q R d f inputs κ with
  | maybe =>
    obtain rfl | ⟨v, rfl, -⟩ := hd
    · rw [does_bind_nothing hs, pure_bind]
      rfl
    · rw [does_bind_some hs, bind_assoc]
      refine (hf.ensures hs v).bind_congr fun d hd => ?_
      rw [hd.ensure, result_pure, pure_bind]
  | identity =>
    obtain ⟨v, rfl, -⟩ := hd
    rw [does_bind_identity hs, bind_assoc]
    refine (hf.ensures hs v).bind_congr fun d hd => ?_
    rw [hd.ensure, result_pure, pure_bind]
  | reader =>
    obtain ⟨m, rfl, hm⟩ := hd
    rw [does_bind_reader hs m hf.1, pure_bind, proceed, does_runReader_bind hs]
    simp only [bind_assoc]
    refine congrArg _ (funext fun v => (hf.ensures hs v).bind_congr fun d hd => ?_)
    obtain ⟨m, rfl, -⟩ := hd
    rfl
  | state =>
    obtain ⟨m, rfl, hm⟩ := hd
    rw [does_bind_state hs m hf.1, pure_bind, proceed, passes_bind hs, bind_assoc]
    refine congrArg _ (funext fun (s, v) => ?_)
    rw [binds_bind]
    refine (hf.ensures hs v).bind_congr fun d hd => ?_
    obtain ⟨m, rfl, -⟩ := hd
    rfl
  | @layered layer inner base h ih =>
    cases layer with
    | reader =>
      obtain ⟨m, rfl, hm⟩ := hd
      rw [does_bind_readerT hs, pure_bind, proceed, does_runReaderT_bind hs, bind_assoc]
      refine ((yields_iff hs).mp (hm _)).bind_congr fun d hd => ?_
      refine (ih hd (hf.thenReader hs inputs.head) inputs.tail _).trans ?_
      refine congrArg _ (funext fun v => funext fun rest => ?_)
      rw [called, does_thenReader hs, bind_assoc]
      refine (hf.ensures hs v).bind_congr fun d hd => ?_
      rw [hd.ensure, result_pure, pure_bind]
      obtain ⟨m, rfl, -⟩ := hd
      rfl
    | state =>
      obtain ⟨m, rfl, hm⟩ := hd
      rw [does_bind_stateT hs, pure_bind, proceed, does_runStateT_bind hs, bind_assoc]
      refine ((yields_iff hs).mp (hm _)).bind_congr fun d hd => ?_
      refine (ih hd (hf.thenState hs) inputs.tail _).trans ?_
      refine congrArg _ (funext fun p => funext fun rest => ?_)
      rw [called, does_thenState hs, bind_assoc]
      refine congrArg _ (funext fun (s, v) => ?_)
      rw [bind_assoc]
      refine (hf.ensures hs v).bind_congr fun d hd => ?_
      rw [hd.ensure, result_pure, pure_bind]
      obtain ⟨m, rfl, -⟩ := hd
      rfl
    | maybe =>
      obtain ⟨c, rfl, hc⟩ := hd
      rw [does_bind_maybeT hs, bind_assoc]
      refine (ih hc (hf.thenMaybe hs) inputs _).trans ?_
      refine congrArg _ (funext fun o => funext fun rest => ?_)
      by_cases ho : ∃ v, o = .comp (.some v)
      · obtain ⟨v, rfl⟩ := ho
        rw [called, does_thenMaybe_some hs, bind_assoc]
        refine (hf.ensures hs v).bind_congr fun d hd => ?_
        rw [hd.ensure, result_pure, pure_bind]
        obtain ⟨c, rfl, -⟩ := hd
        exact pure_bind _ _
      · have habsent : ∀ v, o ≠ .comp (.some v) := fun v hv => ho ⟨v, hv⟩
        rw [called, does_thenMaybe_absent hs _ _ habsent, Continuation.present_absent _ habsent]
        exact proceed_unit hs h (.comp .nothing) rest _

/-- A complete run goes on with nothing but putting the final datum together. -/
theorem unbounded_complete (e : Effect) {Q : Datum F P → Prop} {d : Datum F P}
    (hd : e.Shaped host Q d) (inputs : Inputs F P) :
    host.unbounded (fun go => e.complete go d inputs) =
      host.proceed e d inputs fun v inputs => pure (e.seal v inputs) := by
  match e with
  | .maybe =>
    obtain rfl | ⟨v, rfl, -⟩ := hd <;> exact unbounded_const _
  | .identity =>
    obtain ⟨v, rfl, -⟩ := hd
    simp only [Effect.complete, Datum.runAs_identity]
    exact unbounded_const _
  | .reader =>
    obtain ⟨m, rfl, -⟩ := hd
    exact (bind_pure (host.does (.runReader m inputs.head))).symm
  | .state =>
    obtain ⟨m, rfl, -⟩ := hd
    exact does_runState hs m inputs.head
  | .transformer _ .bare => exact hd.elim
  | .transformer .reader (.onto inner base) =>
    obtain ⟨m, rfl, hm⟩ := hd
    simp only [Effect.complete, Datum.runAs_readerT]
    refine (unbounded_task_bind hs _ fun d => base.complete_follows d inputs.tail).trans ?_
    exact ((yields_iff hs).mp (hm _)).bind_congr fun d hd => unbounded_complete base hd _
  | .transformer .state (.onto inner base) =>
    obtain ⟨m, rfl, hm⟩ := hd
    simp only [Effect.complete, Datum.runAs_stateT]
    refine (unbounded_task_bind hs _ fun d => base.complete_follows d inputs.tail).trans ?_
    refine ((yields_iff hs).mp (hm _)).bind_congr fun d hd => ?_
    refine (unbounded_complete base hd inputs.tail).trans ?_
    refine proceed_congr hs base hd inputs.tail fun p hp => ?_
    obtain ⟨s, v, rfl, -⟩ := hp
    rfl
  | .transformer .maybe (.onto inner base) =>
    obtain ⟨c, rfl, hc⟩ := hd
    simp only [Effect.complete, Datum.runAs_maybeT, pure_bind]
    refine (unbounded_complete base hc inputs).trans ?_
    refine proceed_congr hs base hc inputs fun o ho => ?_
    obtain rfl | ⟨v, rfl, -⟩ := ho <;> rfl

end Steady

/-! ## The laws -/

/-- Builds a computation and runs it completely. -/
def completes (host : Host σ F P) (e : Effect) (inputs : Inputs F P)
    (build : Performer σ F P → Act σ (Datum F P)) (n : Nat) : Act σ (Datum F P) := do
  let d ← build (perform host n)
  e.complete (perform host n) d inputs

/-- The function gives the units of the effect. -/
def IsUnit (host : Host σ F P) (e : Effect) (u : Fn F P) : Prop :=
  u.callable = true ∧ ∀ v, Agree (fun n => perform host n (.call u [v])) fun _ => unitOf e v

/-- The function binds `h` to what `k` gives. -/
def IsComposite (host : Host σ F P) (k h kh : Fn F P) : Prop :=
  kh.callable = true ∧ ∀ v, Agree (fun n => perform host n (.call kh [v])) fun n => do
    let d ← perform host n (.call k [v])
    perform host n (.bind d h)

section Steady

variable (hs : host.Steady)

include hs

theorem IsUnit.does_call {u : Fn F P} (hu : host.IsUnit e u) (v : Datum F P) :
    host.does (.call u [v]) = (unitOf e v).result := by
  have constant : Rising fun _ => (unitOf e v : Act σ (Datum F P)) := fun _ _ _ => Below.refl _
  have h := (agree_iff (hs.rising (Follows.task _)) constant).mp (hu.2 v)
  exact h.trans (Run.unbounded_const _)

theorem IsUnit.continues {u : Fn F P} (hu : host.IsUnit e u) :
    host.Continues e (fun _ => True) u := by
  refine ⟨hu.1, fun v => (yields_iff hs).mpr ?_⟩
  rw [hu.does_call hs v]
  exact unit_shaped hs e trivial

theorem IsComposite.does_call {k h kh : Fn F P} (hkh : host.IsComposite k h kh) (v : Datum F P) :
    host.does (.call kh [v]) = host.does (.call k [v]) >>= fun d => host.does (.bind d h) := by
  have chain : Follows fun go : Performer σ F P =>
      go (.call k [v]) >>= fun d => go (.bind d h) :=
    (Follows.task _).bind fun d => Follows.task _
  have h := (agree_iff (hs.rising (Follows.task _)) (hs.rising chain)).mp (hkh.2 v)
  exact h.trans (unbounded_task_bind hs _ fun d => Follows.task _)

theorem IsComposite.continues {k h kh : Fn F P} (hkh : host.IsComposite k h kh)
    (hk : host.Continues e Q k) (hh : host.Continues e R h) : host.Continues e R kh := by
  refine ⟨hkh.1, fun v => (yields_iff hs).mpr ?_⟩
  rw [hkh.does_call hs v]
  exact (hk.ensures hs v).bind fun d hd => bind_shaped hs e hd hh

/-- What a build of the right shape comes to when it is run completely. -/
theorem unbounded_completes {build : Performer σ F P → Act σ (Datum F P)} (hb : Follows build)
    (hshape : (host.unbounded build).Ensures (e.Shaped host Q)) (inputs : Inputs F P) :
    Run.unbounded (host.completes e inputs build) = host.unbounded build >>= fun d =>
      host.proceed e d inputs fun v inputs => pure (e.seal v inputs) := by
  refine (unbounded_bind hs hb fun d => e.complete_follows d inputs).trans ?_
  exact hshape.bind_congr fun d hd => unbounded_complete hs e hd inputs

/-- Two builds of the right shape agree if they go on alike. -/
theorem completes_agree {build build' : Performer σ F P → Act σ (Datum F P)}
    (hb : Follows build) (hb' : Follows build')
    (hshape : (host.unbounded build).Ensures (e.Shaped host Q))
    (hshape' : (host.unbounded build').Ensures (e.Shaped host R)) (inputs : Inputs F P)
    (h : ∀ κ, (host.unbounded build >>= fun d => host.proceed e d inputs κ) =
      host.unbounded build' >>= fun d => host.proceed e d inputs κ) :
    Agree (host.completes e inputs build) (host.completes e inputs build') := by
  have rising : ∀ {b : Performer σ F P → Act σ (Datum F P)}, Follows b →
      Rising (host.completes e inputs b) :=
    fun hb => hs.rising (hb.bind fun d => e.complete_follows d inputs)
  rw [agree_iff (rising hb) (rising hb'), unbounded_completes hs hb hshape inputs,
    unbounded_completes hs hb' hshape' inputs]
  exact h _

theorem unit_bind_agree (he : e.IsStack) (a : Datum F P) {k : Fn F P}
    (hk : host.Continues e R k) (inputs : Inputs F P) :
    Agree (host.completes e inputs fun go => unitOf e a >>= fun d => go (.bind d k))
      (host.completes e inputs fun go => go (.call k [a])) := by
  have hbuild : host.unbounded (fun go => unitOf e a >>= fun d => go (.bind d k)) =
      (unitOf e a).result >>= fun d => host.does (.bind d k) := by
    rw [unbounded_bind hs (Follows.const _) fun d => Follows.task _, unbounded_const]
    rfl
  have hunit := unit_shaped hs e (Q := fun _ => True) (v := a) trivial
  refine completes_agree hs ((Follows.const _).bind fun d => Follows.task _) (Follows.task _)
    (Q := R) (R := R) ?_ (hk.ensures hs a) inputs fun κ => ?_
  · rw [hbuild]
    exact hunit.bind fun d hd => bind_shaped hs e hd hk
  · rw [hbuild, bind_assoc, hunit.bind_congr fun d hd => proceed_bind hs he hd hk inputs κ]
    exact proceed_unit hs he a inputs _

theorem bind_unit_agree (he : e.IsStack) {m : Datum F P} (hm : e.Shaped host Q m) {u : Fn F P}
    (hu : host.IsUnit e u) (inputs : Inputs F P) :
    Agree (host.completes e inputs fun go => go (.bind m u))
      (host.completes e inputs fun _ => pure m) := by
  have hpure : host.unbounded (fun _ => pure m) = pure m := unbounded_const _
  refine completes_agree hs (Follows.task _) (Follows.const _)
    (bind_shaped hs e hm (hu.continues hs)) (R := Q) ?_ inputs fun κ => ?_
  · rw [hpure]
    exact Ensures.pure hm
  · refine (proceed_bind hs he hm (hu.continues hs) inputs κ).trans ?_
    rw [hpure, pure_bind]
    refine congrArg _ (funext fun v => funext fun rest => ?_)
    rw [called, hu.does_call hs v]
    exact proceed_unit hs he v rest κ

theorem bind_bind_agree (he : e.IsStack) {m : Datum F P} (hm : e.Shaped host Q m)
    {k h kh : Fn F P} (hk : host.Continues e R k) (hh : host.Continues e R h)
    (hkh : host.IsComposite k h kh) (inputs : Inputs F P) :
    Agree (host.completes e inputs fun go => go (.bind m k) >>= fun d => go (.bind d h))
      (host.completes e inputs fun go => go (.bind m kh)) := by
  have hbuild : host.unbounded (fun go => go (.bind m k) >>= fun d => go (.bind d h)) =
      host.does (.bind m k) >>= fun d => host.does (.bind d h) :=
    unbounded_task_bind hs _ fun d => Follows.task _
  have hmk := bind_shaped hs e hm hk
  have hc := hkh.continues hs hk hh
  refine completes_agree hs ((Follows.task _).bind fun d => Follows.task _) (Follows.task _)
    (Q := R) ?_ (bind_shaped hs e hm hc) inputs fun κ => ?_
  · rw [hbuild]
    exact hmk.bind fun d hd => bind_shaped hs e hd hh
  · rw [hbuild, bind_assoc, hmk.bind_congr fun d hd => proceed_bind hs he hd hh inputs κ]
    refine (proceed_bind hs he hm hk inputs _).trans ?_
    refine Eq.trans ?_ (proceed_bind hs he hm hc inputs κ).symm
    refine congrArg _ (funext fun v => funext fun rest => ?_)
    rw [called, called, hkh.does_call hs v, bind_assoc]
    exact (hk.ensures hs v).bind_congr fun d hd => (proceed_bind hs he hd hh rest κ).symm

end Steady

end Host

/-- **The laws of effect stacks.** Binding `k` to a unit is calling `k`, binding units changes
nothing, and it makes no difference whether `h` is bound to a bound computation or within its
binder: built and run completely, with any environments and states, both sides end together, with the
same final datum or the same error, and in the same world. -/
theorem stack_bind_laws {host : Host σ F P} (hs : host.Steady) {e : Effect} (he : e.IsStack)
    (inputs : Inputs F P) :
    (∀ (a : Datum F P) (k : Fn F P), host.Continues e (fun _ => True) k →
      Agree (host.completes e inputs fun go => unitOf e a >>= fun d => go (.bind d k))
        (host.completes e inputs fun go => go (.call k [a]))) ∧
    (∀ (m : Datum F P) (u : Fn F P), e.Shaped host (fun _ => True) m → host.IsUnit e u →
      Agree (host.completes e inputs fun go => go (.bind m u))
        (host.completes e inputs fun _ => pure m)) ∧
    (∀ (m : Datum F P) (k h kh : Fn F P), e.Shaped host (fun _ => True) m →
      host.Continues e (fun _ => True) k → host.Continues e (fun _ => True) h →
      host.IsComposite k h kh →
      Agree (host.completes e inputs fun go => go (.bind m k) >>= fun d => go (.bind d h))
        (host.completes e inputs fun go => go (.bind m kh))) := by
  refine ⟨?_, ?_, ?_⟩
  · intro a k hk
    exact Host.unit_bind_agree hs he a hk inputs
  · intro m u hm hu
    exact Host.bind_unit_agree hs he hm hu inputs
  · intro m k h kh hm hk hh hkh
    exact Host.bind_bind_agree hs he hm hk hh hkh inputs

/-! ## A sample stack -/

/-- Absence over reading. -/
abbrev ledgerBases : Bases := .onto .bare (.transformer .maybe (.onto .bare .reader))

/-- A host for state over absence over reading. Its callbacks are a raw function that stores its
environment, a binder that gives the state, the units, and that binder within itself. -/
def ledger : Host Unit (Fin 5) Empty where
  call go f args :=
    match f, args with
    | 0, [_] => return .comp (.maybeT (.onto .bare .reader) (.comp (.reader (.asks (.host 1)))))
    | 1, [env] => return .comp (.some (.tuple [env, .null]))
    | 2, [_] => return .comp (.stateT ledgerBases .get)
    | 3, [v] => unitOf (.transformer .state ledgerBases) v
    | 4, [v] => go (.call (.host 2) [v]) >>= fun d => go (.bind d (.host 2))
    | _, _ => Run.fault (.unsupported "call" "function")
  start _ _ := Run.fault (.unsupported "start" "function")
  resume _ p _ := nomatch p

theorem ledger_steady : ledger.Steady where
  call h f args := by
    dsimp only [ledger]
    split
    case h_5 => exact (h _).bind fun d => h _
    all_goals exact Below.refl _
  start _ _ := Below.refl _
  resume _ p := nomatch p

theorem ledger_shaped : Effect.Shaped ledger (.transformer .state ledgerBases) (fun _ => True)
    (.comp (.stateT ledgerBases (.raw (.host 0)))) := by
  refine ⟨_, rfl, fun s => (Host.yields_iff ledger_steady).mpr ?_⟩
  rw [Host.does_runStateT_raw ledger_steady, Host.does_host ledger_steady fun _ => rfl]
  refine Ensures.pure ⟨_, rfl, _, rfl, fun env => (Host.yields_iff ledger_steady).mpr ?_⟩
  rw [Host.does_runReader_asks ledger_steady, Host.does_host ledger_steady fun _ => rfl]
  exact Ensures.pure (.inr ⟨_, rfl, _, _, rfl, trivial⟩)

theorem ledger_continues :
    ledger.Continues (.transformer .state ledgerBases) (fun _ => True) (.host 2) := by
  refine ⟨rfl, fun v => (Host.yields_iff ledger_steady).mpr ?_⟩
  rw [Host.does_host ledger_steady fun _ => rfl]
  refine Ensures.pure ⟨_, rfl, fun s => (Host.yields_iff ledger_steady).mpr ?_⟩
  rw [Host.does_runStateT_get ledger_steady]
  exact Host.unit_shaped ledger_steady _ ⟨s, s, rfl, trivial⟩

/-- The three laws for a raw state program of the sample stack, from the state 7 in the environment
5: the state that was read twice is the environment, and the result is present. -/
theorem stack_bind_laws_ledger :
    let e : Effect := .transformer .state ledgerBases
    let m : Datum (Fin 5) Empty := .comp (.stateT ledgerBases (.raw (.host 0)))
    let inputs : Inputs (Fin 5) Empty := (Stream'.const (.int 5)).cons (.int 7)
    ledger.Steady ∧ e.IsStack ∧ e.Shaped ledger (fun _ => True) m ∧
    ledger.Continues e (fun _ => True) (.host 2) ∧ ledger.IsUnit e (.host 3) ∧
    ledger.IsComposite (.host 2) (.host 2) (.host 4) ∧
    Settles (ledger.completes e inputs fun go => unitOf e .null >>= fun d => go (.bind d (.host 2)))
      () (.done (.comp (.some (.tuple [.int 7, .int 7])))) () ∧
    Settles (ledger.completes e inputs fun go => go (.bind m (.host 3)))
      () (.done (.comp (.some (.tuple [.int 5, .null])))) () ∧
    Settles (ledger.completes e inputs fun go =>
        go (.bind m (.host 2)) >>= fun d => go (.bind d (.host 2)))
      () (.done (.comp (.some (.tuple [.int 5, .int 5])))) () := by
  intro e m inputs
  have he : e.IsStack := .layered _ _ (.layered _ _ .reader)
  have hu : ledger.IsUnit e (.host 3) :=
    ⟨rfl, fun v => Host.agree_attempt ledger_steady (.call (.host 3) [v])⟩
  have hc : ledger.IsComposite (.host 2) (.host 2) (.host 4) :=
    ⟨rfl, fun v => Host.agree_attempt ledger_steady (.call (.host 4) [v])⟩
  obtain ⟨left, right, assoc⟩ := stack_bind_laws ledger_steady he inputs
  refine ⟨ledger_steady, he, ledger_shaped, ledger_continues, hu, hc, ?_, ?_, ?_⟩
  · exact (left .null _ ledger_continues _ _ _).mpr ⟨by simp, 9, rfl⟩
  · exact (right m _ ledger_shaped hu _ _ _).mpr ⟨by simp, 9, rfl⟩
  · have h := assoc m _ _ _ ledger_shaped ledger_continues ledger_continues hc
    exact (h _ _ _).mpr ⟨by simp, 9, rfl⟩

end EffectCalculus
