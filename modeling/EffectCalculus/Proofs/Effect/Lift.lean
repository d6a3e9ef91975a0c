import EffectCalculus.Proofs.Effect.Deferred

/-!
# Lifting into a layer

A computation of the base is lifted into a layer above in three ways, one for each layer: as it is,
with the state paired to its result, or with its result marked as present. Said with what comes
afterwards, lifting does nothing at all: the layer above has its input again when the computation
has its result.

* `Layer.below`, `Continuation.above`: the inputs that are left for the base, and what follows in
  the layer above;
* `Host.lift_shaped`, `Host.proceed_lift`: **lifting goes on in the base**;
* `Host.lift_unit_agree`, `Host.lift_bind_agree`: lifting keeps units and binding;
* `Effect.atResult`, `Host.lift_complete_agree`: the final datum of a lifted computation is that of
  the computation in the base, with the result wrapped by the layer;
* `lift_is_morphism`: the three together.
-/

namespace EffectCalculus

open Run Unbounded

variable {σ F P : Type}

/-! ## One layer -/

/-- The inputs that a layer leaves for its base. -/
def Layer.below : Layer → Inputs F P → Inputs F P
  | .maybe, inputs => inputs
  | .reader, inputs | .state, inputs => inputs.tail

/-- What follows in a layer above: it has the input that it took again. -/
def Continuation.above (layer : Layer) (inputs : Inputs F P) (κ : Continuation σ F P) :
    Continuation σ F P :=
  match layer with
  | .maybe => κ
  | .reader | .state => fun v rest => κ v (rest.cons inputs.head)

/-- How a layer wraps the results of its base that were lifted. -/
def Layer.wrap (inputs : Inputs F P) : Layer → Datum F P → Datum F P
  | .reader, v => v
  | .state, v => .tuple [inputs.head, v]
  | .maybe, v => .comp (.some v)

/-! ## Final data -/

/-- The pair with its second part changed. -/
def Datum.onSecond (g : Datum F P → Datum F P) : Datum F P → Datum F P
  | .tuple [s, v] => .tuple [s, g v]
  | d => d

/-- The optional result with what is present changed. -/
def Datum.onPresent (g : Datum F P → Datum F P) : Datum F P → Datum F P
  | .comp (.some v) => .comp (.some (g v))
  | d => d

/-- The final datum of a complete run with the result changed, where there is one; the states and
the absence of a result stay. -/
def Effect.atResult : Effect → (Datum F P → Datum F P) → Datum F P → Datum F P
  | .maybe, g => Datum.onPresent g
  | .identity, g | .reader, g => g
  | .state, g => Datum.onSecond g
  | .transformer _ .bare, g => g
  | .transformer .reader (.onto _ base), g => base.atResult g
  | .transformer .state (.onto _ base), g => base.atResult (Datum.onSecond g)
  | .transformer .maybe (.onto _ base), g => base.atResult (Datum.onPresent g)

/-- The result is where the final datum has it. -/
theorem Effect.atResult_seal (e : Effect) (g : Datum F P → Datum F P) (v : Datum F P)
    (inputs : Inputs F P) : e.atResult g (e.seal v inputs) = e.seal (g v) inputs := by
  match e with
  | .maybe | .identity | .reader | .state | .transformer _ .bare => rfl
  | .transformer .reader (.onto _ base) => exact atResult_seal base g v inputs.tail
  | .transformer .state (.onto _ base) =>
    exact atResult_seal base (Datum.onSecond g) (.tuple [inputs.head, v]) inputs.tail
  | .transformer .maybe (.onto _ base) =>
    exact atResult_seal base (Datum.onPresent g) (.comp (.some v)) inputs

/-- A layer puts its input and the wrapped result together as it does for results of its own. -/
theorem Effect.above_seal (layer : Layer) (inner : Bases) (base : Effect) (inputs : Inputs F P) :
    Continuation.above layer inputs (fun v rest =>
        (pure ((Effect.transformer layer (.onto inner base)).seal v rest) :
          Unbounded EffectError σ (Datum F P))) =
      fun v rest => pure (base.seal (layer.wrap inputs v) rest) := by
  cases layer <;> rfl

namespace Host

variable {host : Host σ F P} {base : Effect} {layer : Layer} {inner : Bases}
  {Q R : Datum F P → Prop} {d : Datum F P} {f : Fn F P}

section Steady

variable (hs : host.Steady)

include hs

/-- What lifting builds. Only a layer of absence has something to do at once. -/
theorem unbounded_lift (hd : base.Shaped host Q d) :
    host.unbounded (fun go => Effect.lift go (.transformer layer (.onto inner base)) d) =
      match layer with
      | .reader => pure (.comp (.readerT (.onto inner base) (.lift d)))
      | .state => pure (.comp (.stateT (.onto inner base) (.lift d)))
      | .maybe => host.does (.map d .present) >>= fun c =>
          pure (.comp (.maybeT (.onto inner base) c)) := by
  simp only [Effect.lift, Effect.base, Bases.base?, ofExcept_ok, pure_bind, hd.ensure]
  cases layer with
  | reader | state => exact unbounded_const _
  | maybe => exact unbounded_task_bind_const hs _ _

/-- A lifted computation has the shape of the layer above. -/
theorem lift_shaped (hb : base.IsStack) (hd : base.Shaped host Q d) :
    (host.unbounded fun go => Effect.lift go (.transformer layer (.onto inner base)) d).Ensures
      (Effect.Shaped host (.transformer layer (.onto inner base)) Q) := by
  rw [unbounded_lift hs hd]
  cases layer with
  | reader =>
    refine Ensures.pure ⟨_, rfl, fun env => (yields_iff hs).mpr ?_⟩
    rw [does_runReaderT_lift hs]
    exact Ensures.pure hd
  | state =>
    refine Ensures.pure ⟨_, rfl, fun s => (yields_iff hs).mpr ?_⟩
    rw [does_runStateT_lift hs, ← yields_iff hs]
    refine map_yields hs hb hd rfl fun v hv => (yields_iff hs).mpr ?_
    rw [does_pairWith hs]
    exact Ensures.pure ⟨s, v, rfl, hv⟩
  | maybe =>
    have hmap : host.Yields (.map d .present) (base.Shaped host (IsOptional Q)) := by
      refine map_yields hs hb hd rfl fun v hv => (yields_iff hs).mpr ?_
      rw [does_present hs]
      exact Ensures.pure (.inr ⟨v, rfl, hv⟩)
    exact ((yields_iff hs).mp hmap).bind fun c hc => Ensures.pure ⟨c, rfl, hc⟩

/-- **Lifting goes on in the base.** Whatever the layer did with the result, it undoes again. -/
theorem proceed_lift (hb : base.IsStack) (hd : base.Shaped host Q d) (inputs : Inputs F P)
    (κ : Continuation σ F P) :
    (host.unbounded (fun go => Effect.lift go (.transformer layer (.onto inner base)) d) >>=
        fun d => host.proceed (.transformer layer (.onto inner base)) d inputs κ) =
      host.proceed base d (layer.below inputs) (κ.above layer inputs) := by
  rw [unbounded_lift hs hd]
  cases layer with
  | reader =>
    dsimp only
    rw [pure_bind, proceed, does_runReaderT_lift hs, pure_bind]
    rfl
  | state =>
    dsimp only
    rw [pure_bind, proceed, does_runStateT_lift hs,
      proceed_map hs hb hd (f := .pairWith inputs.head) rfl]
    refine congrArg _ (funext fun v => funext fun rest => ?_)
    rw [applied, does_pairWith hs, pure_bind]
    exact pure_bind _ _
  | maybe =>
    dsimp only
    rw [bind_assoc]
    refine Eq.trans ?_ ((proceed_map hs hb hd (f := .present) rfl inputs (κ.present base)).trans ?_)
    · exact congrArg _ (funext fun c => pure_bind _ _)
    · refine congrArg _ (funext fun v => funext fun rest => ?_)
      rw [applied, does_present hs, pure_bind]
      rfl

/-! ## Units and binding -/

omit hs in
/-- The input of a layer and what is left are all inputs. -/
theorem above_below (layer : Layer) (inputs : Inputs F P) (κ : Continuation σ F P) (v : Datum F P) :
    κ.above layer inputs v (layer.below inputs) = κ v inputs := by
  cases layer with
  | maybe => rfl
  | reader | state => exact congrArg (κ v) (Stream'.eta inputs)

/-- The function gives what `f` gives, lifted into the effect. -/
def IsLifted (host : Host σ F P) (e : Effect) (f lifted : Fn F P) : Prop :=
  lifted.callable = true ∧ ∀ v, Agree (fun n => perform host n (.call lifted [v])) fun n => do
    let d ← perform host n (.call f [v])
    e.lift (perform host n) d

theorem IsLifted.does_call {e : Effect} {lifted : Fn F P} (h : host.IsLifted e f lifted)
    (v : Datum F P) :
    host.does (.call lifted [v]) =
      host.does (.call f [v]) >>= fun d => host.unbounded fun go => e.lift go d := by
  have chain : Follows fun go : Performer σ F P => go (.call f [v]) >>= fun d => e.lift go d :=
    (Follows.task _).bind fun d => Effect.lift_follows d e
  have hcall := (agree_iff (hs.rising (Follows.task _)) (hs.rising chain)).mp (h.2 v)
  exact hcall.trans (unbounded_task_bind hs _ fun d => Effect.lift_follows d e)

theorem IsLifted.continues {lifted : Fn F P}
    (h : host.IsLifted (.transformer layer (.onto inner base)) f lifted) (hb : base.IsStack)
    (hf : host.Continues base R f) :
    host.Continues (.transformer layer (.onto inner base)) R lifted := by
  refine ⟨h.1, fun v => (yields_iff hs).mpr ?_⟩
  rw [h.does_call hs v]
  exact (hf.ensures hs v).bind fun d hd => lift_shaped hs hb hd

/-- What follows a lifted computation with a lifted binder is what follows in the base. -/
theorem called_lifted {lifted : Fn F P}
    (h : host.IsLifted (.transformer layer (.onto inner base)) f lifted) (hb : base.IsStack)
    (hf : host.Continues base R f) (inputs : Inputs F P) (κ : Continuation σ F P) :
    (host.called (.transformer layer (.onto inner base)) lifted κ).above layer inputs =
      host.called base f (κ.above layer inputs) := by
  have go_on : ∀ (v : Datum F P) (rest : Inputs F P),
      host.called (.transformer layer (.onto inner base)) lifted κ v rest =
        host.does (.call f [v]) >>= fun d =>
          host.proceed base d (layer.below rest) (κ.above layer rest) := by
    intro v rest
    rw [called, h.does_call hs v, bind_assoc]
    exact (hf.ensures hs v).bind_congr fun d hd => proceed_lift hs hb hd rest κ
  funext v rest
  cases layer with
  | maybe => exact go_on v rest
  | reader | state => exact go_on v (rest.cons inputs.head)

/-- Lifting a unit is a unit. -/
theorem lift_unit_agree (hb : base.IsStack) (a : Datum F P) (inputs : Inputs F P) :
    Agree (host.completes (.transformer layer (.onto inner base)) inputs fun go =>
        unitOf base a >>= Effect.lift go (.transformer layer (.onto inner base)))
      (host.completes (.transformer layer (.onto inner base)) inputs fun _ =>
        unitOf (.transformer layer (.onto inner base)) a) := by
  have hunit := unit_shaped hs base (Q := fun _ => True) (v := a) trivial
  have hbuild : host.unbounded (fun go =>
      unitOf base a >>= Effect.lift go (.transformer layer (.onto inner base))) =
        (unitOf base a).result >>= fun d => host.unbounded fun go =>
          Effect.lift go (.transformer layer (.onto inner base)) d := by
    rw [unbounded_bind hs (Follows.const _) fun d => Effect.lift_follows d _, unbounded_const]
  refine completes_agree hs ((Follows.const _).bind fun d => Effect.lift_follows d _)
    (Follows.const _) (Q := fun _ => True) (R := fun _ => True) ?_ ?_ inputs fun κ => ?_
  · rw [hbuild]
    exact hunit.bind fun d hd => lift_shaped hs hb hd
  · rw [unbounded_const]
    exact unit_shaped hs _ trivial
  · rw [hbuild, unbounded_const, bind_assoc, proceed_unit hs (.layered layer inner hb) a inputs κ,
      hunit.bind_congr fun d hd => proceed_lift hs hb hd inputs κ,
      proceed_unit hs hb a (layer.below inputs)]
    exact above_below layer inputs κ a

/-- Lifting what is bound together is binding what is lifted. -/
theorem lift_bind_agree (hb : base.IsStack) {m : Datum F P} (hm : base.Shaped host Q m)
    (hf : host.Continues base R f) {lifted : Fn F P}
    (hl : host.IsLifted (.transformer layer (.onto inner base)) f lifted) (inputs : Inputs F P) :
    Agree (host.completes (.transformer layer (.onto inner base)) inputs fun go =>
        go (.bind m f) >>= Effect.lift go (.transformer layer (.onto inner base)))
      (host.completes (.transformer layer (.onto inner base)) inputs fun go =>
        Effect.lift go (.transformer layer (.onto inner base)) m >>= fun d =>
          go (.bind d lifted)) := by
  have he : Effect.IsStack (.transformer layer (.onto inner base)) := .layered layer inner hb
  have hbound := bind_shaped hs base hm hf
  have hlifted : (host.unbounded fun go =>
      Effect.lift go (.transformer layer (.onto inner base)) m).Ensures
      (Effect.Shaped host (.transformer layer (.onto inner base)) Q) := lift_shaped hs hb hm
  have hlf := hl.continues hs hb hf
  have hbuild := unbounded_task_bind hs (.bind m f)
    fun d => Effect.lift_follows d (.transformer layer (.onto inner base))
  have hbuild' := unbounded_bind hs
    (Effect.lift_follows m (.transformer layer (.onto inner base)))
    fun d => Follows.task (.bind d lifted)
  refine completes_agree hs ((Follows.task _).bind fun d => Effect.lift_follows d _)
    ((Effect.lift_follows m _).bind fun d => Follows.task _) (Q := R) (R := R) ?_ ?_ inputs
    fun κ => ?_
  · rw [hbuild]
    exact hbound.bind fun d hd => lift_shaped hs hb hd
  · rw [hbuild']
    exact hlifted.bind fun d hd => bind_shaped hs _ hd hlf
  · rw [hbuild, hbuild', bind_assoc, bind_assoc,
      hbound.bind_congr fun d hd => proceed_lift hs hb hd inputs κ,
      proceed_bind hs hb hm hf, ← called_lifted hs hl hb hf inputs κ,
      ← proceed_lift hs hb hm inputs]
    exact hlifted.bind_congr fun d hd => (proceed_bind hs he hd hlf inputs κ).symm

/-! ## Complete runs -/

/-- Changing the result in a final datum can be left to what follows; where nothing follows, there
is no result to change. -/
theorem proceed_atResult (e : Effect) {Q : Datum F P → Prop} {d : Datum F P}
    (hd : e.Shaped host Q d) (g : Datum F P → Datum F P) (inputs : Inputs F P)
    (κ : Continuation σ F P) :
    (host.proceed e d inputs κ >>= fun d => pure (e.atResult g d)) =
      host.proceed e d inputs fun v rest => κ v rest >>= fun d => pure (e.atResult g d) := by
  match e with
  | .maybe => obtain rfl | ⟨v, rfl, -⟩ := hd <;> rfl
  | .identity =>
    obtain ⟨v, rfl, -⟩ := hd
    rfl
  | .reader | .state =>
    obtain ⟨m, rfl, -⟩ := hd
    exact bind_assoc _ _ _
  | .transformer _ .bare => exact hd.elim
  | .transformer .reader (.onto inner base) =>
    obtain ⟨m, rfl, hm⟩ := hd
    rw [proceed, proceed, bind_assoc]
    exact ((yields_iff hs).mp (hm _)).bind_congr fun d hd => proceed_atResult base hd g _ _
  | .transformer .state (.onto inner base) =>
    obtain ⟨m, rfl, hm⟩ := hd
    rw [proceed, proceed, bind_assoc]
    refine ((yields_iff hs).mp (hm _)).bind_congr fun d hd => ?_
    refine (proceed_atResult base hd (Datum.onSecond g) inputs.tail κ.paired).trans ?_
    exact congrArg _ (funext fun p => funext fun rest => bind_assoc _ _ _)
  | .transformer .maybe (.onto inner base) =>
    obtain ⟨c, rfl, hc⟩ := hd
    rw [proceed, proceed]
    refine (proceed_atResult base hc (Datum.onPresent g) inputs (κ.present base)).trans ?_
    refine proceed_congr hs base hc inputs fun o ho => funext fun rest => ?_
    obtain rfl | ⟨v, rfl, -⟩ := ho
    · refine (pure_bind _ _).trans ?_
      rw [Effect.atResult_seal]
      rfl
    · rfl

/-- **A lifted computation is run as in the base.** Its final datum is that of the base with the
result wrapped by the layer, so the state above is the one that it started with. -/
theorem lift_complete_agree (hb : base.IsStack) {m : Datum F P} (hm : base.Shaped host Q m)
    (inputs : Inputs F P) :
    Agree (host.completes (.transformer layer (.onto inner base)) inputs fun go =>
        Effect.lift go (.transformer layer (.onto inner base)) m)
      fun n => do
        let d ← base.complete (perform host n) m (layer.below inputs)
        return base.atResult (layer.wrap inputs) d := by
  have hlift := (Effect.lift_follows (σ := σ) m (.transformer layer (.onto inner base))).bind
    fun d => Effect.complete_follows (.transformer layer (.onto inner base)) d inputs
  have hcomplete := base.complete_follows (σ := σ) m (layer.below inputs)
  have hwrap : ∀ d, Follows fun _ : Performer σ F P =>
      (pure (base.atResult (layer.wrap inputs) d) : Act σ (Datum F P)) := fun d => Follows.const _
  refine (agree_iff (hs.rising hlift) (hs.rising (hcomplete.bind hwrap))).mpr ?_
  refine Eq.trans ?_ (unbounded_bind hs hcomplete hwrap).symm
  refine (unbounded_completes hs (Effect.lift_follows m _) (lift_shaped hs hb hm) inputs).trans ?_
  rw [proceed_lift hs hb hm inputs, Effect.above_seal, unbounded_complete hs base hm]
  simp only [unbounded_const, result_pure]
  rw [proceed_atResult hs base hm]
  refine congrArg _ (funext fun v => funext fun rest => ?_)
  rw [pure_bind, Effect.atResult_seal]

end Steady

end Host

/-- **Lifting is a morphism** from every effect stack to each transformer over it. The lift of a
unit is a unit, and the lift of a bound computation is the lift of the computation with the lifted
binder bound to it: built and run completely, with any environments and states, both sides end
together, with the same final datum or the same error, and in the same world. A lifted computation
ends as it does in the base, with the input of the layer above untouched. -/
theorem lift_is_morphism {host : Host σ F P} (hs : host.Steady) {base : Effect}
    (hb : base.IsStack) (layer : Layer) (inner : Bases) (inputs : Inputs F P) :
    let e : Effect := .transformer layer (.onto inner base)
    (∀ a : Datum F P,
      Agree (host.completes e inputs fun go => unitOf base a >>= e.lift go)
        (host.completes e inputs fun _ => unitOf e a)) ∧
    (∀ (m : Datum F P) (f lifted : Fn F P), base.Shaped host (fun _ => True) m →
      host.Continues base (fun _ => True) f → host.IsLifted e f lifted →
      Agree (host.completes e inputs fun go => go (.bind m f) >>= e.lift go)
        (host.completes e inputs fun go => e.lift go m >>= fun d => go (.bind d lifted))) ∧
    (∀ m : Datum F P, base.Shaped host (fun _ => True) m →
      Agree (host.completes e inputs fun go => e.lift go m) fun n => do
        let d ← base.complete (perform host n) m (layer.below inputs)
        return base.atResult (layer.wrap inputs) d) := by
  intro e
  refine ⟨?_, ?_, ?_⟩
  · intro a
    exact Host.lift_unit_agree hs hb a inputs
  · intro m f lifted hm hf hl
    exact Host.lift_bind_agree hs hb hm hf hl inputs
  · intro m hm
    exact Host.lift_complete_agree hs hb hm inputs

/-! ## A sample stack -/

/-- A state that may be lost to a failure. -/
abbrev relayBase : Effect := .transformer .state (.onto .bare .maybe)

/-- A host for one state over another. Its callbacks are a binder that stores its argument twice in
the lower state, and that binder lifted. -/
def relay : Host Unit (Fin 2) Empty where
  call go f args :=
    match f, args with
    | 0, [v] => return .comp (.stateT (.onto .bare .maybe) (.put (.tuple [v, v])))
    | 1, [v] =>
      go (.call (.host 0) [v]) >>= Effect.lift go (.transformer .state (.onto .bare relayBase))
    | _, _ => Run.fault (.unsupported "call" "function")
  start _ _ := Run.fault (.unsupported "start" "function")
  resume _ p _ := nomatch p

theorem relay_steady : relay.Steady where
  call h f args := by
    dsimp only [relay]
    split
    · exact Below.refl _
    · exact (h _).bind fun d => Effect.lift_follows d _ h
    · exact Below.refl _
  start _ _ := Below.refl _
  resume _ p := nomatch p

theorem relay_shaped : relayBase.Shaped relay (fun _ => True)
    (.comp (.stateT (.onto .bare .maybe) .get)) := by
  refine ⟨_, rfl, fun s => (Host.yields_iff relay_steady).mpr ?_⟩
  rw [Host.does_runStateT_get relay_steady]
  exact Host.unit_shaped relay_steady _ ⟨s, s, rfl, trivial⟩

theorem relay_continues : relay.Continues relayBase (fun _ => True) (.host 0) := by
  refine ⟨rfl, fun v => (Host.yields_iff relay_steady).mpr ?_⟩
  rw [Host.does_host relay_steady fun _ => rfl]
  refine Ensures.pure ⟨_, rfl, fun s => (Host.yields_iff relay_steady).mpr ?_⟩
  rw [Host.does_eq relay_steady]
  simp only [Task.attempt, StateTProg.runWith, Host.unbounded_const]
  exact Host.unit_shaped relay_steady _ ⟨_, _, rfl, trivial⟩

/-- Lifting for the sample stack, from the upper state 7 and the lower state 5: the lower state is
stored twice, and the upper one stays. -/
theorem lift_is_morphism_relay :
    let e : Effect := .transformer .state (.onto .bare relayBase)
    let m : Datum (Fin 2) Empty := .comp (.stateT (.onto .bare .maybe) .get)
    let inputs : Inputs (Fin 2) Empty := (Stream'.const (.int 5)).cons (.int 7)
    relay.Steady ∧ relayBase.IsStack ∧ relayBase.Shaped relay (fun _ => True) m ∧
    relay.Continues relayBase (fun _ => True) (.host 0) ∧
    relay.IsLifted e (.host 0) (.host 1) ∧
    Settles (relay.completes e inputs fun go => unitOf relayBase .null >>= e.lift go)
      () (.done (.comp (.some (.tuple [.int 5, .tuple [.int 7, .null]])))) () ∧
    Settles (relay.completes e inputs fun go => go (.bind m (.host 0)) >>= e.lift go)
      () (.done (.comp (.some (.tuple [.tuple [.int 5, .int 5], .tuple [.int 7, .null]])))) () ∧
    Settles (relay.completes e inputs fun go => e.lift go m)
      () (.done (.comp (.some (.tuple [.int 5, .tuple [.int 7, .int 5]])))) () := by
  intro e m inputs
  have hb : relayBase.IsStack := .layered _ _ .maybe
  have hl : relay.IsLifted e (.host 0) (.host 1) :=
    ⟨rfl, fun v => Host.agree_attempt relay_steady (.call (.host 1) [v])⟩
  obtain ⟨unit, bind, run⟩ := lift_is_morphism relay_steady hb .state .bare inputs
  refine ⟨relay_steady, hb, relay_shaped, relay_continues, hl, ?_, ?_, ?_⟩
  · exact (unit .null _ _ _).mpr ⟨by simp, 9, rfl⟩
  · exact (bind m _ _ relay_shaped relay_continues hl _ _ _).mpr ⟨by simp, 12, rfl⟩
  · exact (run m relay_shaped _ _ _).mpr ⟨by simp, 9, rfl⟩

end EffectCalculus
