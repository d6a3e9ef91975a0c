import EffectCalculus.Effect.Operations
import EffectCalculus.Proofs.Effect.Task
import Mathlib.Data.Stream.Init

/-!
# Effect stacks

An effect stack is a plain effect, or a transformer over an effect stack. A computation of a stack
is run layer by layer: each layer that reads or keeps a state is given an environment or an initial
state of its own, and leaves a computation of the layer below.

* `Effect.IsStack`: the effects that are made of the plain ones by transformers;
* `Effect.complete`: the complete run of a computation, down to plain data;
* `Effect.Shaped`: the computation belongs to exactly this effect, and so does, layer by layer, all
  that its runs give: pairs below a state layer, optional results below a maybe layer.
-/

namespace EffectCalculus

open Run

variable {σ F P : Type}

/-- The effects that are made of the plain ones by transformers. -/
inductive Effect.IsStack : Effect → Prop
  | maybe : IsStack .maybe
  | reader : IsStack .reader
  | state : IsStack .state
  | identity : IsStack .identity
  | layered (layer : Layer) (inner : Bases) {base : Effect} (h : base.IsStack) :
    IsStack (.transformer layer (.onto inner base))

/-! ## Complete runs -/

/-- Environments and initial states, for the outermost layer first. Layers that take none pass them
on, and what is left over is not looked at. -/
abbrev Inputs (F P : Type) := Stream' (Datum F P)

/-- Lets the computations of exactly the effect pass. -/
def Datum.ofEffect (e : Effect) (d : Datum F P) : Act σ (Comp F P) :=
  match d with
  | .comp c => if c.effect = e then return c else Run.fault (.unsupported "run" c.kind)
  | d => Run.fault (.unsupported "run" d.kind)

/-- Runs a computation of exactly the effect. -/
def Datum.runAs (go : Performer σ F P) (e : Effect) (input : Option (Datum F P)) (d : Datum F P) :
    Act σ (Datum F P) := do
  let c ← d.ofEffect e
  c.run go input

/-- Runs a computation through all layers. Present and absent results are data as they are. -/
def Effect.complete (go : Performer σ F P) : Effect → Datum F P → Inputs F P → Act σ (Datum F P)
  | .maybe, d, _ => do
    let c ← d.ofEffect .maybe
    return .comp c
  | .identity, d, _ => d.runAs go .identity none
  | .reader, d, inputs => d.runAs go .reader (some inputs.head)
  | .state, d, inputs => d.runAs go .state (some inputs.head)
  | .transformer layer .bare, _, _ => Run.fault (.noBase (.transformer layer .bare))
  | .transformer .maybe (.onto inner base), d, inputs => do
    let d ← d.runAs go (.transformer .maybe (.onto inner base)) none
    base.complete go d inputs
  | .transformer .reader (.onto inner base), d, inputs => do
    let d ← d.runAs go (.transformer .reader (.onto inner base)) (some inputs.head)
    base.complete go d inputs.tail
  | .transformer .state (.onto inner base), d, inputs => do
    let d ← d.runAs go (.transformer .state (.onto inner base)) (some inputs.head)
    base.complete go d inputs.tail

namespace Datum

theorem runAs_comp (go : Performer σ F P) {c : Comp F P} {e : Effect} (hc : c.effect = e)
    (input : Option (Datum F P)) : (Datum.comp c).runAs go e input = c.run go input := by
  simp [runAs, ofEffect, hc]

variable (go : Performer σ F P)

@[simp] theorem runAs_identity (v : Datum F P) :
    (Datum.comp (.identity v)).runAs go .identity none = pure v :=
  runAs_comp go rfl none

@[simp] theorem runAs_reader (m : ReaderProg F P) (env : Datum F P) :
    (Datum.comp (.reader m)).runAs go .reader (some env) = go (.runReader m env) :=
  runAs_comp go rfl (some env)

@[simp] theorem runAs_state (m : StateProg F P) (s : Datum F P) :
    (Datum.comp (.state m)).runAs go .state (some s) = go (.runState [] m s) :=
  runAs_comp go rfl (some s)

@[simp] theorem runAs_readerT (bases : Bases) (m : ReaderTProg F P) (env : Datum F P) :
    (Datum.comp (.readerT bases m)).runAs go (.transformer .reader bases) (some env) =
      go (.runReaderT bases m env) :=
  runAs_comp go rfl (some env)

@[simp] theorem runAs_stateT (bases : Bases) (m : StateTProg F P) (s : Datum F P) :
    (Datum.comp (.stateT bases m)).runAs go (.transformer .state bases) (some s) =
      go (.runStateT bases m s) :=
  runAs_comp go rfl (some s)

@[simp] theorem runAs_maybeT (bases : Bases) (d : Datum F P) :
    (Datum.comp (.maybeT bases d)).runAs go (.transformer .maybe bases) none = pure d :=
  runAs_comp go rfl none

end Datum

theorem Comp.run_follows (c : Comp F P) (input : Option (Datum F P)) :
    Follows fun go : Performer σ F P => c.run go input := by
  cases c <;> cases input <;>
    first
      | exact Follows.const _
      | exact Follows.task _

theorem Datum.runAs_follows (e : Effect) (input : Option (Datum F P)) (d : Datum F P) :
    Follows fun go : Performer σ F P => d.runAs go e input :=
  (Follows.const (d.ofEffect e)).bind fun c => c.run_follows input

theorem Effect.complete_follows (e : Effect) (d : Datum F P) (inputs : Inputs F P) :
    Follows fun go : Performer σ F P => e.complete go d inputs := by
  match e with
  | .maybe => exact Follows.const _
  | .identity | .reader | .state => exact Datum.runAs_follows _ _ d
  | .transformer layer .bare => exact Follows.const _
  | .transformer .maybe (.onto _ base) =>
    exact (Datum.runAs_follows _ _ d).bind fun d => complete_follows base d inputs
  | .transformer .reader (.onto _ base) | .transformer .state (.onto _ base) =>
    exact (Datum.runAs_follows _ _ d).bind fun d => complete_follows base d inputs.tail

/-! ## Shapes -/

/-- Whenever the task gives a datum, the datum has the property `Q`. -/
def Host.Yields (host : Host σ F P) (t : Task F P) (Q : Datum F P → Prop) : Prop :=
  ∀ w d w', Settles (fun n => perform host n t) w (.done d) w' → Q d

/-- A pair whose second part has the property `Q`. -/
def IsPair (Q : Datum F P → Prop) (d : Datum F P) : Prop := ∃ s v, d = .tuple [s, v] ∧ Q v

/-- An absent result, or a present one with the property `Q`. -/
def IsOptional (Q : Datum F P → Prop) (d : Datum F P) : Prop :=
  d = .comp .nothing ∨ ∃ v, d = .comp (.some v) ∧ Q v

/-- The datum is a computation of exactly the effect. All that it gives when it is run, for any
environment or state, has the shape of the layer below, and its results have the property `Q`. -/
def Effect.Shaped (host : Host σ F P) : Effect → (Datum F P → Prop) → Datum F P → Prop
  | .maybe, Q, d => IsOptional Q d
  | .identity, Q, d => ∃ v, d = .comp (.identity v) ∧ Q v
  | .reader, Q, d => ∃ m, d = .comp (.reader m) ∧ ∀ env, host.Yields (.runReader m env) Q
  | .state, Q, d => ∃ m, d = .comp (.state m) ∧ ∀ s, host.Yields (.runState [] m s) (IsPair Q)
  | .transformer _ .bare, _, _ => False
  | .transformer .reader (.onto inner base), Q, d =>
    ∃ m, d = .comp (.readerT (.onto inner base) m) ∧
      ∀ env, host.Yields (.runReaderT (.onto inner base) m env) (base.Shaped host Q)
  | .transformer .state (.onto inner base), Q, d =>
    ∃ m, d = .comp (.stateT (.onto inner base) m) ∧
      ∀ s, host.Yields (.runStateT (.onto inner base) m s) (base.Shaped host (IsPair Q))
  | .transformer .maybe (.onto inner base), Q, d =>
    ∃ c, d = .comp (.maybeT (.onto inner base) c) ∧ base.Shaped host (IsOptional Q) c

variable {host : Host σ F P}

theorem Host.yields_iff (hs : host.Steady) {t : Task F P} {Q : Datum F P → Prop} :
    host.Yields t Q ↔ (host.does t).Ensures Q := by
  constructor
  · intro h w d w' hd
    exact h w d w' ((settles_done (hs.rising (Follows.task t))).mpr hd)
  · intro h w d w' hd
    exact h w d w' ((settles_done (hs.rising (Follows.task t))).mp hd)

end EffectCalculus
