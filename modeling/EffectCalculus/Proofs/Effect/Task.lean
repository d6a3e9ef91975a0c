import EffectCalculus.Effect.Depth
import EffectCalculus.Proofs.Run.Unbounded

/-!
# Tasks without a bound

What the tasks of effect programs come to, with one equation for each kind of task.

* `Follows`: an action that ends at least as often as the tasks that it hands out;
* `Progress.enter`: what a block does with what its body has come to;
* `Host.unbounded`, `Host.does`: what an action, and a single task, comes to;
* `Host.does_bind_some`, `Host.does_thenReader`, …: the equations, free of any bound.
-/

namespace EffectCalculus

open Run

variable {σ F P α β : Type}

/-- The action ends in the same way wherever the tasks that it hands out do. -/
def Follows (f : Performer σ F P → Act σ α) : Prop :=
  ∀ ⦃go go' : Performer σ F P⦄, go.Below go' → Below (f go) (f go')

namespace Follows

theorem const (m : Act σ α) : Follows fun _ : Performer σ F P => m := fun _ _ _ => Below.refl m

theorem task (t : Task F P) : Follows fun go : Performer σ F P => go t := fun _ _ h => h t

theorem bind {f : Performer σ F P → Act σ α} {g : Performer σ F P → α → Act σ β} (hf : Follows f)
    (hg : ∀ a, Follows fun go => g go a) : Follows fun go => f go >>= g go :=
  fun _ _ h => (hf h).bind fun a => hg a h

end Follows

/-! ## Bodies of blocks -/

/-- Hands a computation that a body has yielded to the rest of the body, as a block of the effect
does. -/
def Comp.handTo (go : Performer σ F P) (e : Effect) (m : Comp F P) (rest : Fn F P) :
    Act σ (Datum F P) :=
  match e, m with
  | .maybe, .some v => go (.call rest [v])
  | _, _ => go (.bind (.comp m) rest)

theorem Comp.handTo_follows (e : Effect) (m : Comp F P) (rest : Fn F P) :
    Follows fun go : Performer σ F P => m.handTo go e rest := by
  unfold Comp.handTo
  split
  · exact Follows.task _
  · exact Follows.task _

/-- What a block does with the progress of its body. -/
def Progress.enter (go : Performer σ F P) (e : Effect) : Progress F P → Act σ (Datum F P)
  | .returned v => unitOf e v
  | .yielded (.comp m) rest => m.handTo go e (.resume e rest)
  | .yielded d _ => Run.fault (.badYield d.kind e)

theorem Progress.enter_follows (e : Effect) (progress : Progress F P) :
    Follows fun go : Performer σ F P => progress.enter go e := by
  cases progress with
  | returned v => exact Follows.const _
  | yielded d rest =>
    cases d with
    | comp m => exact m.handTo_follows e _
    | _ => exact Follows.const _

theorem Fn.callWith_resume (host : Host σ F P) (go : Performer σ F P) (e : Effect) (p : P)
    (x : Datum F P) :
    (Fn.resume e p).callWith host go [x] = host.resume go p x >>= Progress.enter go e := by
  refine bind_congr fun progress => ?_
  cases progress with
  | returned v => rfl
  | yielded d rest => cases d <;> rfl

namespace Host

/-- What an action comes to when the tasks that it hands out are done without a bound. -/
noncomputable def unbounded (host : Host σ F P) (f : Performer σ F P → Act σ α) :
    Unbounded EffectError σ α :=
  Run.unbounded fun n => f (perform host n)

/-- What a task comes to. -/
noncomputable def does (host : Host σ F P) (t : Task F P) :
    Unbounded EffectError σ (Datum F P) :=
  host.unbounded fun go => go t

variable {host : Host σ F P}

theorem unbounded_const (m : Act σ α) : host.unbounded (fun _ => m) = m.result :=
  Run.unbounded_const m

theorem Steady.rising (hs : host.Steady) {f : Performer σ F P → Act σ α} (hf : Follows f) :
    Rising fun n => f (perform host n) :=
  fun _ _ h => hf (perform_below hs h)

section Steady

variable (hs : host.Steady)

include hs

theorem unbounded_bind {f : Performer σ F P → Act σ α} {g : Performer σ F P → α → Act σ β}
    (hf : Follows f) (hg : ∀ a, Follows fun go => g go a) :
    host.unbounded (fun go => f go >>= g go) =
      host.unbounded f >>= fun a => host.unbounded fun go => g go a :=
  Run.unbounded_bind (hs.rising hf) fun a => hs.rising (hg a)

/-- The first step of a task. -/
theorem does_eq (t : Task F P) : host.does t = host.unbounded fun go => t.attempt host go :=
  (Run.unbounded_succ (hs.rising (Follows.task t))).symm

/-- A task ends as its first step does. -/
theorem agree_attempt (t : Task F P) :
    Agree (fun n => perform host n t) (fun n => t.attempt host (perform host n)) := by
  have follows : Follows fun go : Performer σ F P => t.attempt host go :=
    fun _ _ h => Task.attempt_below hs h t
  rw [agree_iff (hs.rising (Follows.task t)) (hs.rising follows)]
  exact does_eq hs t

/-- A task, and then something else. -/
theorem unbounded_task_bind (t : Task F P) {g : Performer σ F P → Datum F P → Act σ β}
    (hg : ∀ a, Follows fun go => g go a) :
    host.unbounded (fun go => go t >>= g go) =
      host.does t >>= fun a => host.unbounded fun go => g go a :=
  unbounded_bind hs (Follows.task t) hg

/-- A task, and then no further one. -/
theorem unbounded_task_bind_const (t : Task F P) (k : Datum F P → Act σ β) :
    host.unbounded (fun go => go t >>= k) = host.does t >>= fun a => (k a).result := by
  rw [unbounded_task_bind hs t fun a => Follows.const (k a)]
  simp only [unbounded_const]

/-! ## Binding and mapping -/

theorem does_bind_some (v : Datum F P) (f : Fn F P) :
    host.does (.bind (.comp (.some v)) f) =
      host.does (.call f [v]) >>= fun d => (d.ensure .flatMap .maybe).result := by
  rw [does_eq hs]
  exact unbounded_task_bind_const hs _ _

theorem does_bind_identity (v : Datum F P) (f : Fn F P) :
    host.does (.bind (.comp (.identity v)) f) =
      host.does (.call f [v]) >>= fun d => (d.ensure .flatMap .identity).result := by
  rw [does_eq hs]
  exact unbounded_task_bind_const hs _ _

theorem does_bind_nothing (f : Fn F P) :
    host.does (.bind (.comp .nothing) f) = pure (.comp .nothing) := by
  rw [does_eq hs]
  exact unbounded_const _

theorem does_bind_reader (m : ReaderProg F P) {f : Fn F P} (hf : f.callable = true) :
    host.does (.bind (.comp (.reader m)) f) = pure (.comp (.reader (.bind m f))) := by
  rw [does_eq hs]
  simp only [Task.attempt, Comp.bindWith, hf]
  exact unbounded_const _

theorem does_map_reader (m : ReaderProg F P) (f : Fn F P) :
    host.does (.map (.comp (.reader m)) f) = pure (.comp (.reader (.map m f))) := by
  rw [does_eq hs]
  exact unbounded_const _

theorem does_bind_state (m : StateProg F P) {f : Fn F P} (hf : f.callable = true) :
    host.does (.bind (.comp (.state m)) f) = pure (.comp (.state (.bind m f))) := by
  rw [does_eq hs]
  simp only [Task.attempt, Comp.bindWith, hf]
  exact unbounded_const _

theorem does_bind_readerT (bases : Bases) (m : ReaderTProg F P) (f : Fn F P) :
    host.does (.bind (.comp (.readerT bases m)) f) =
      pure (.comp (.readerT bases (.bind m f))) := by
  rw [does_eq hs]
  exact unbounded_const _

theorem does_bind_stateT (bases : Bases) (m : StateTProg F P) (f : Fn F P) :
    host.does (.bind (.comp (.stateT bases m)) f) =
      pure (.comp (.stateT bases (.bind m f))) := by
  rw [does_eq hs]
  exact unbounded_const _

theorem does_bind_maybeT (inner : Bases) (base : Effect) (d : Datum F P) (f : Fn F P) :
    host.does (.bind (.comp (.maybeT (.onto inner base) d)) f) =
      host.does (.bind d (.thenMaybe (.onto inner base) f)) >>= fun d =>
        pure (.comp (.maybeT (.onto inner base) d)) := by
  rw [does_eq hs]
  exact unbounded_task_bind_const hs _ _

/-! ## Going on in a layer -/

/-- A task, a check of what it gives, and then something else. -/
theorem unbounded_task_ensure_bind (t : Task F P) (slot : Slot) (e : Effect)
    {g : Performer σ F P → Datum F P → Act σ β} (hg : ∀ d, Follows fun go => g go d) :
    host.unbounded (fun go => go t >>= fun d => d.ensure slot e >>= g go) =
      host.does t >>= fun d => (d.ensure slot e).result >>= fun d =>
        host.unbounded fun go => g go d := by
  rw [unbounded_task_bind hs t fun d => (Follows.const (d.ensure slot e)).bind hg]
  simp only [unbounded_bind hs (Follows.const _) hg, unbounded_const]

theorem does_thenReader (bases : Bases) (f : Fn F P) (env v : Datum F P) :
    host.does (.call (.thenReader bases f env) [v]) =
      host.does (.call f [v]) >>= fun d =>
        (d.ensure .binder (.transformer .reader bases)).result >>= fun
          | Datum.comp (.readerT bases m) => host.does (.runReaderT bases m env)
          | d => .fault (.unsupported "run" d.kind) := by
  rw [does_eq hs]
  have enter : ∀ d : Datum F P, Follows fun go : Performer σ F P => match d with
      | .comp (.readerT bases m) => go (.runReaderT bases m env)
      | d => Run.fault (.unsupported "run" d.kind) := by
    intro d
    split
    · exact Follows.task _
    · exact Follows.const _
  refine (unbounded_task_ensure_bind hs _ _ _ enter).trans ?_
  refine congrArg _ (funext fun d => congrArg _ (funext fun d => ?_))
  split
  · rfl
  · exact unbounded_const _

theorem does_thenState (bases : Bases) (f : Fn F P) (p : Datum F P) :
    host.does (.call (.thenState bases f) [p]) =
      (Run.ofExcept p.pair).result >>= fun (s, v) => host.does (.call f [v]) >>= fun d =>
        (d.ensure .binder (.transformer .state bases)).result >>= fun
          | Datum.comp (.stateT bases m) => host.does (.runStateT bases m s)
          | d => .fault (.unsupported "run" d.kind) := by
  rw [does_eq hs]
  have enter : ∀ (s d : Datum F P), Follows fun go : Performer σ F P => match d with
      | .comp (.stateT bases m) => go (.runStateT bases m s)
      | d => Run.fault (.unsupported "run" d.kind) := by
    intro s d
    split
    · exact Follows.task _
    · exact Follows.const _
  refine (unbounded_bind hs (Follows.const (Run.ofExcept p.pair)) fun (s, v) =>
    (Follows.task (.call f [v])).bind fun d => (Follows.const _).bind (enter s)).trans ?_
  rw [unbounded_const]
  refine congrArg _ (funext fun (s, v) => ?_)
  refine (unbounded_task_ensure_bind hs _ _ _ (enter s)).trans ?_
  refine congrArg _ (funext fun d => congrArg _ (funext fun d => ?_))
  split
  · rfl
  · exact unbounded_const _

theorem does_thenMaybe_some (bases : Bases) (f : Fn F P) (v : Datum F P) :
    host.does (.call (.thenMaybe bases f) [.comp (.some v)]) =
      host.does (.call f [v]) >>= fun d =>
        (d.ensure .binder (.transformer .maybe bases)).result >>= fun
          | Datum.comp (.maybeT _ inner) => pure inner
          | d => .fault (.unsupported "run" d.kind) := by
  rw [does_eq hs]
  have enter : ∀ d : Datum F P, Follows fun _ : Performer σ F P => match d with
      | .comp (.maybeT _ inner) => pure inner
      | d => Run.fault (.unsupported "run" d.kind) := fun d => Follows.const _
  refine (unbounded_task_ensure_bind hs _ _ _ enter).trans ?_
  refine congrArg _ (funext fun d => congrArg _ (funext fun d => ?_))
  split <;> exact unbounded_const _

/-- Whatever is no present result counts as absent. -/
theorem does_thenMaybe_absent (bases : Bases) (f : Fn F P) {d : Datum F P}
    (hd : ∀ v, d ≠ .comp (.some v)) :
    host.does (.call (.thenMaybe bases f) [d]) =
      (baseUnitOf .maybe bases (.comp .nothing)).result := by
  rw [does_eq hs]
  cases d with
  | comp c =>
    cases c with
    | some v => exact absurd rfl (hd v)
    | _ => exact unbounded_const _
  | _ => exact unbounded_const _

theorem does_unitAfter (e : Effect) (f : Fn F P) (args : List (Datum F P)) :
    host.does (.call (.unitAfter e f) args) =
      host.does (.call f args) >>= fun v => (unitOf e v).result := by
  rw [does_eq hs]
  exact unbounded_task_bind_const hs _ _

theorem does_combine (e : Effect) (f : Fn F P) (m a : Datum F P) :
    host.does (.call (.combine e f m) [a]) = host.does (.bind m (.combineWith e f a)) :=
  does_eq hs _

theorem does_combineWith (e : Effect) (f : Fn F P) (a b : Datum F P) :
    host.does (.call (.combineWith e f a) [b]) =
      host.does (.call f [a, b]) >>= fun v => (unitOf e v).result := by
  rw [does_eq hs]
  exact unbounded_task_bind_const hs _ _

theorem does_const (d : Datum F P) (args : List (Datum F P)) :
    host.does (.call (.const d) args) = pure d := by
  rw [does_eq hs]
  exact unbounded_const _

theorem does_present (v : Datum F P) : host.does (.call .present [v]) = pure (.comp (.some v)) := by
  rw [does_eq hs]
  exact unbounded_const _

theorem does_pairWith (s v : Datum F P) :
    host.does (.call (.pairWith s) [v]) = pure (.tuple [s, v]) := by
  rw [does_eq hs]
  exact unbounded_const _

/-- A callback that gives a datum at once. -/
theorem does_host {f : F} {args : List (Datum F P)} {d : Datum F P}
    (h : ∀ go, host.call go f args = pure d) : host.does (.call (.host f) args) = pure d := by
  rw [does_eq hs]
  simp only [Task.attempt, Fn.callWith, h]
  exact unbounded_const _

/-! ## Running -/

theorem does_runReader_asks (f : Fn F P) (env : Datum F P) :
    host.does (.runReader (.asks f) env) = host.does (.call f [env]) :=
  does_eq hs _

theorem does_runStateT_raw (bases : Bases) (f : Fn F P) (s : Datum F P) :
    host.does (.runStateT bases (.raw f) s) = host.does (.call f [s]) :=
  does_eq hs _

theorem does_runStateT_get (bases : Bases) (s : Datum F P) :
    host.does (.runStateT bases .get s) = (baseUnitOf .state bases (.tuple [s, s])).result := by
  rw [does_eq hs]
  exact unbounded_const _

theorem does_runStateT_lift (bases : Bases) (c s : Datum F P) :
    host.does (.runStateT bases (.lift c) s) = host.does (.map c (.pairWith s)) :=
  does_eq hs _

theorem does_runReader_ask (env : Datum F P) : host.does (.runReader .ask env) = pure env := by
  rw [does_eq hs]
  exact unbounded_const _

theorem does_runReader_map (m : ReaderProg F P) (f : Fn F P) (env : Datum F P) :
    host.does (.runReader (.map m f) env) =
      host.does (.runReader m env) >>= fun v => host.does (.call f [v]) := by
  rw [does_eq hs, does_eq hs (.runReader m env)]
  exact unbounded_bind hs (fun _ _ h => ReaderProg.runWith_below h m env) fun v => Follows.task _

theorem does_runReader_within (f : Fn F P) (m : ReaderProg F P) (env : Datum F P) :
    host.does (.runReader (.within f m) env) =
      host.does (.call f [env]) >>= fun env => host.does (.runReader m env) := by
  rw [does_eq hs]
  refine (unbounded_task_bind hs _ fun env _ _ h => ReaderProg.runWith_below h m env).trans ?_
  exact congrArg _ (funext fun env => (does_eq hs (.runReader m env)).symm)

theorem does_runReader_pure (v env : Datum F P) :
    host.does (.runReader (.pure v) env) = pure v := by
  rw [does_eq hs]
  exact unbounded_const _

theorem does_runReader_bind (m : ReaderProg F P) (f : Fn F P) (env : Datum F P) :
    host.does (.runReader (.bind m f) env) =
      host.does (.runReader m env) >>= fun v => host.does (.call f [v]) >>= fun
        | Datum.comp (.reader m) => host.does (.runReader m env)
        | d => .fault (.wrongEffect .binder .reader d.kind) := by
  rw [does_eq hs, does_eq hs (.runReader m env)]
  have follows : ∀ d : Datum F P, Follows fun go : Performer σ F P => match d with
      | .comp (.reader m) => go (.runReader m env)
      | d => Run.fault (.wrongEffect .binder .reader d.kind) := by
    intro d
    split
    · exact Follows.task _
    · exact Follows.const _
  refine (unbounded_bind hs (fun _ _ h => ReaderProg.runWith_below h m env) fun v =>
    (Follows.task _).bind follows).trans ?_
  congr 1
  funext v
  rw [unbounded_task_bind hs _ follows]
  congr 1
  funext d
  split
  · rfl
  · exact unbounded_const _

theorem does_runReaderT_pure (bases : Bases) (v env : Datum F P) :
    host.does (.runReaderT bases (.pure v) env) = (baseUnitOf .reader bases v).result := by
  rw [does_eq hs]
  exact unbounded_const _

theorem does_runReaderT_ask (bases : Bases) (env : Datum F P) :
    host.does (.runReaderT bases .ask env) = (baseUnitOf .reader bases env).result := by
  rw [does_eq hs]
  exact unbounded_const _

theorem does_runReaderT_lift (bases : Bases) (c env : Datum F P) :
    host.does (.runReaderT bases (.lift c) env) = pure c := by
  rw [does_eq hs]
  exact unbounded_const _

theorem does_runReaderT_within (bases : Bases) (f : Fn F P) (m : ReaderTProg F P)
    (env : Datum F P) :
    host.does (.runReaderT bases (.within f m) env) =
      host.does (.call f [env]) >>= fun env => host.does (.runReaderT bases m env) := by
  rw [does_eq hs]
  refine (unbounded_task_bind hs _ fun env _ _ h =>
    ReaderTProg.runWith_below h bases m env).trans ?_
  exact congrArg _ (funext fun env => (does_eq hs (.runReaderT bases m env)).symm)

theorem does_runReaderT_bind (bases : Bases) (m : ReaderTProg F P) (f : Fn F P)
    (env : Datum F P) :
    host.does (.runReaderT bases (.bind m f) env) =
      host.does (.runReaderT bases m env) >>= fun c =>
        host.does (.bind c (.thenReader bases f env)) := by
  rw [does_eq hs, does_eq hs (.runReaderT bases m env)]
  exact unbounded_bind hs (fun _ _ h => ReaderTProg.runWith_below h bases m env) fun c =>
    Follows.task _

theorem does_runStateT_pure (bases : Bases) (v s : Datum F P) :
    host.does (.runStateT bases (.pure v) s) =
      (baseUnitOf .state bases (.tuple [s, v])).result := by
  rw [does_eq hs]
  exact unbounded_const _

theorem does_runStateT_bind (bases : Bases) (m : StateTProg F P) (f : Fn F P) (s : Datum F P) :
    host.does (.runStateT bases (.bind m f) s) =
      host.does (.runStateT bases m s) >>= fun c => host.does (.bind c (.thenState bases f)) := by
  rw [does_eq hs, does_eq hs (.runStateT bases m s)]
  exact unbounded_bind hs (fun _ _ h => StateTProg.runWith_below h bases m s) fun c =>
    Follows.task _

end Steady

end Host

end EffectCalculus
