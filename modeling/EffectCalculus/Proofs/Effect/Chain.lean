import EffectCalculus.Proofs.Effect.Stack

/-!
# Blocks as chains of binds

The body of a block, written without a block: each computation that it yields is bound to a callback
for the rest of the body, and what it returns is a unit. For all effects but the maybe effect, a
block and such a chain go in step: at every bound they hand out tasks that differ only in how the
rest of the body is written down.

* `Host.Chains`: the callbacks of a host that write a body as a chain;
* `Run.Match`: runs in step, whose results are related;
* `Fn.Linked`, `Datum.Linked`, `Task.Linked`: the rest of a body and the callback for it, and
  computations and tasks in which one stands for the other;
* `perform_linked`: **linked tasks go in step**; the results of complete programs are equal.
-/

namespace EffectCalculus

open Run

variable {σ F P : Type}

/-- A body for a block of the effect, and the callbacks that write it as a chain. -/
structure Chain (F P : Type) where
  effect : Effect
  body : F
  /-- Opens the body. -/
  first : F
  /-- Goes on with the body from where it stands. -/
  link : P → F

/-- Goes on with a body by binds: a computation that it yields is bound to the callback for the
rest. -/
def Chain.advance (c : Chain F P) (host : Host σ F P) (go : Performer σ F P) (p : P)
    (sent : Datum F P) : Act σ (Datum F P) := do
  match ← host.resume go p sent with
  | .returned v => unitOf c.effect v
  | .yielded (.comp m) rest => go (.bind (.comp m) (.host (c.link rest)))
  | .yielded d _ => Run.fault (.badYield d.kind c.effect)

/-- The host has the callbacks of the chain. -/
structure Host.Chains (host : Host σ F P) (c : Chain F P) : Prop where
  first (go : Performer σ F P) (x : Datum F P) :
    host.call go c.first [x] =
      host.start go c.body >>= fun p => go (.call (.host (c.link p)) [.null])
  link (go : Performer σ F P) (p : P) (x : Datum F P) :
    host.call go (c.link p) [x] = c.advance host go p x

/-! ## Runs in step -/

/-- Ends of the same kind, with related results or the same fault. -/
inductive Outcome.Match {ε α β : Type} (R : α → β → Prop) : Outcome ε α → Outcome ε β → Prop
  | done {a : α} {b : β} (h : R a b) : Match R (.done a) (.done b)
  | fault (e : ε) : Match R (.fault e) (.fault e)
  | unfinished : Match R .unfinished .unfinished

/-- From every world the runs end alike and in the same world. -/
def Run.Match {ε σ α β : Type} (R : α → β → Prop) (m : Run ε σ α) (m' : Run ε σ β) : Prop :=
  ∀ w, Outcome.Match R (m w).1 (m' w).1 ∧ (m w).2 = (m' w).2

namespace Run.Match

variable {ε σ α β γ δ : Type} {R : α → β → Prop} {S : γ → δ → Prop}

theorem pure {a : α} {b : β} (h : R a b) :
    Match R (Pure.pure a : Run ε σ α) (Pure.pure b) := fun _ => ⟨.done h, rfl⟩

theorem fault (e : ε) : Match R (Run.fault e : Run ε σ α) (Run.fault e) := fun _ => ⟨.fault e, rfl⟩

theorem unfinished : Match R (Run.unfinished : Run ε σ α) Run.unfinished :=
  fun _ => ⟨.unfinished, rfl⟩

theorem refl {R : α → α → Prop} (h : ∀ a, R a a) (m : Run ε σ α) : Match R m m := by
  intro w
  rcases hm : m w with ⟨a | e | _, w'⟩
  · exact ⟨.done (h a), rfl⟩
  · exact ⟨.fault e, rfl⟩
  · exact ⟨.unfinished, rfl⟩

theorem bind {m : Run ε σ α} {m' : Run ε σ β} {k : α → Run ε σ γ} {k' : β → Run ε σ δ}
    (hm : Match R m m') (hk : ∀ a b, R a b → Match S (k a) (k' b)) :
    Match S (m >>= k) (m' >>= k') := by
  intro w
  obtain ⟨hout, hw⟩ := hm w
  rcases h : m w with ⟨out, w₁⟩
  rcases h' : m' w with ⟨out', w₁'⟩
  rw [h, h'] at hout hw
  cases hw
  cases hout with
  | done hab =>
    rw [bind_done h, bind_done h']
    exact hk _ _ hab w₁
  | fault e =>
    rw [bind_fault h, bind_fault h']
    exact ⟨.fault e, rfl⟩
  | unfinished =>
    rw [bind_unfinished h, bind_unfinished h']
    exact ⟨.unfinished, rfl⟩

theorem mono {S : α → β → Prop} {m : Run ε σ α} {m' : Run ε σ β} (hm : Match R m m')
    (h : ∀ a b, R a b → S a b) : Match S m m' := by
  intro w
  obtain ⟨hout, hw⟩ := hm w
  refine ⟨?_, hw⟩
  generalize (m w).1 = out at hout
  generalize (m' w).1 = out' at hout
  cases hout with
  | done hab => exact .done (h _ _ hab)
  | fault e => exact .fault e
  | unfinished => exact .unfinished

theorem eq {m m' : Run ε σ α} (h : Match Eq m m') : m = m' := by
  funext w
  obtain ⟨hout, hw⟩ := h w
  refine Prod.ext ?_ hw
  generalize (m w).1 = out at hout
  generalize (m' w).1 = out' at hout
  cases hout with
  | done h => rw [h]
  | fault => rfl
  | unfinished => rfl

end Run.Match

/-! ## Links -/

/-- The second function has callbacks of the chain where the first goes on with the block. -/
inductive Fn.Linked (c : Chain F P) : Fn F P → Fn F P → Prop
  | refl (f : Fn F P) : Linked c f f
  | start : Linked c (.start c.effect c.body) (.host c.first)
  | resume (p : P) : Linked c (.resume c.effect p) (.host (c.link p))
  | thenReader (bases : Bases) (env : Datum F P) {f f' : Fn F P} (h : Linked c f f') :
    Linked c (.thenReader bases f env) (.thenReader bases f' env)
  | thenState (bases : Bases) {f f' : Fn F P} (h : Linked c f f') :
    Linked c (.thenState bases f) (.thenState bases f')
  | thenMaybe (bases : Bases) {f f' : Fn F P} (h : Linked c f f') :
    Linked c (.thenMaybe bases f) (.thenMaybe bases f')

/-- The computations differ only in their outermost binders, which are linked. -/
inductive Datum.Linked (c : Chain F P) : Datum F P → Datum F P → Prop
  | refl (d : Datum F P) : Linked c d d
  | reader (m : ReaderProg F P) {f f' : Fn F P} (h : Fn.Linked c f f') :
    Linked c (.comp (.reader (.bind m f))) (.comp (.reader (.bind m f')))
  | state (m : StateProg F P) {f f' : Fn F P} (h : Fn.Linked c f f') :
    Linked c (.comp (.state (.bind m f))) (.comp (.state (.bind m f')))
  | readerT (bases : Bases) (m : ReaderTProg F P) {f f' : Fn F P} (h : Fn.Linked c f f') :
    Linked c (.comp (.readerT bases (.bind m f))) (.comp (.readerT bases (.bind m f')))
  | stateT (bases : Bases) (m : StateTProg F P) {f f' : Fn F P} (h : Fn.Linked c f f') :
    Linked c (.comp (.stateT bases (.bind m f))) (.comp (.stateT bases (.bind m f')))
  | maybeT (bases : Bases) {d d' : Datum F P} (h : Linked c d d') :
    Linked c (.comp (.maybeT bases d)) (.comp (.maybeT bases d'))

/-- Tasks with linked functions. The relation in front is that of their results: what a reader or a
state program gives is equal, and only computations are linked otherwise. -/
inductive Task.Linked (c : Chain F P) :
    (Datum F P → Datum F P → Prop) → Task F P → Task F P → Prop
  | call {f f' : Fn F P} (h : Fn.Linked c f f') (x : Datum F P) :
    Linked c (Datum.Linked c) (.call f [x]) (.call f' [x])
  | bind (d : Datum F P) {f f' : Fn F P} (h : Fn.Linked c f f') :
    Linked c (Datum.Linked c) (.bind d f) (.bind d f')
  | runReader (m : ReaderProg F P) {f f' : Fn F P} (h : Fn.Linked c f f') (env : Datum F P) :
    Linked c Eq (.runReader (.bind m f) env) (.runReader (.bind m f') env)
  | runState {pending pending' : List (Fn F P)} {m m' : StateProg F P}
    (hstep : (m.unwind pending).1 = (m'.unwind pending').1)
    (h : List.Forall₂ (Fn.Linked c) (m.unwind pending).2 (m'.unwind pending').2)
    (s : Datum F P) : Linked c Eq (.runState pending m s) (.runState pending' m' s)
  | runReaderT (bases : Bases) (m : ReaderTProg F P) {f f' : Fn F P} (h : Fn.Linked c f f')
    (env : Datum F P) :
    Linked c (Datum.Linked c) (.runReaderT bases (.bind m f) env)
      (.runReaderT bases (.bind m f') env)
  | runStateT (bases : Bases) (m : StateTProg F P) {f f' : Fn F P} (h : Fn.Linked c f f')
    (s : Datum F P) :
    Linked c (Datum.Linked c) (.runStateT bases (.bind m f) s) (.runStateT bases (.bind m f') s)

variable {host : Host σ F P} {c : Chain F P} {f f' : Fn F P} {d d' : Datum F P}

theorem Fn.Linked.callable_eq (h : Fn.Linked c f f') : f.callable = f'.callable := by
  cases h <;> rfl

namespace Datum.Linked

theorem kind_eq (h : Datum.Linked c d d') : d.kind = d'.kind := by
  cases h <;> rfl

theorem isA_eq (h : Datum.Linked c d d') (e : Effect) : d.isA e = d'.isA e := by
  cases h <;> rfl

theorem ensure (h : Datum.Linked c d d') (slot : Slot) (e : Effect) :
    Run.Match (Datum.Linked c) (d.ensure slot e : Act σ _) (d'.ensure slot e) := by
  unfold Datum.ensure
  rw [h.isA_eq, h.kind_eq]
  split
  · exact .pure h
  · exact .fault _

end Datum.Linked

/-- Binders that are put on linked stacks leave linked stacks. -/
theorem StateProg.unwind_linked (m : StateProg F P) {pending pending' : List (Fn F P)}
    (h : List.Forall₂ (Fn.Linked c) pending pending') :
    (m.unwind pending).1 = (m.unwind pending').1 ∧
      List.Forall₂ (Fn.Linked c) (m.unwind pending).2 (m.unwind pending').2 := by
  match m with
  | .step _ => exact ⟨rfl, h⟩
  | .bind m f => exact unwind_linked m (.cons (.refl f) h)

/-! ## One step -/

/-- Linked tasks are done in step. -/
def Performer.InStep (c : Chain F P) (go : Performer σ F P) : Prop :=
  ∀ ⦃R t t'⦄, Task.Linked c R t t' → Run.Match R (go t) (go t')

namespace Performer.InStep

variable {go : Performer σ F P} (hgo : go.InStep c)

include hgo

/-- Running linked readers that a binder has made. -/
theorem runReader (env : Datum F P) :
    Datum.Linked c d d' → Run.Match Eq
      (match d with
        | .comp (.reader m) => go (.runReader m env)
        | d => Run.fault (.wrongEffect .binder .reader d.kind))
      (match d' with
        | .comp (.reader m) => go (.runReader m env)
        | d => Run.fault (.wrongEffect .binder .reader d.kind)) := by
  intro h
  cases h with
  | refl => exact .refl (fun _ => rfl) _
  | reader m h => exact hgo (.runReader m h env)
  | _ => exact .fault _

theorem runState {pending pending' : List (Fn F P)}
    (hp : List.Forall₂ (Fn.Linked c) pending pending') (s : Datum F P) :
    Datum.Linked c d d' → Run.Match Eq
      (match d with
        | .comp (.state m) => go (.runState pending m s)
        | d => Run.fault (.wrongEffect .binder .state d.kind))
      (match d' with
        | .comp (.state m) => go (.runState pending' m s)
        | d => Run.fault (.wrongEffect .binder .state d.kind)) := by
  intro h
  cases h with
  | refl =>
    cases d with
    | comp c =>
      cases c with
      | state m =>
        obtain ⟨hstep, hrest⟩ := m.unwind_linked hp
        exact hgo (.runState hstep hrest s)
      | _ => exact .fault _
    | _ => exact .fault _
  | @state m f f' h =>
    obtain ⟨hstep, hrest⟩ := m.unwind_linked (.cons h hp)
    apply hgo
    apply Task.Linked.runState
    · exact hstep
    · exact hrest
  | _ => exact .fault _

theorem runReaderT (env : Datum F P) :
    Datum.Linked c d d' → Run.Match (Datum.Linked c)
      (match d with
        | .comp (.readerT bases m) => go (.runReaderT bases m env)
        | d => Run.fault (.unsupported "run" d.kind))
      (match d' with
        | .comp (.readerT bases m) => go (.runReaderT bases m env)
        | d => Run.fault (.unsupported "run" d.kind)) := by
  intro h
  cases h with
  | refl => exact .refl .refl _
  | readerT bases m h => exact hgo (.runReaderT bases m h env)
  | _ => exact .fault _

theorem runStateT (s : Datum F P) :
    Datum.Linked c d d' → Run.Match (Datum.Linked c)
      (match d with
        | .comp (.stateT bases m) => go (.runStateT bases m s)
        | d => Run.fault (.unsupported "run" d.kind))
      (match d' with
        | .comp (.stateT bases m) => go (.runStateT bases m s)
        | d => Run.fault (.unsupported "run" d.kind)) := by
  intro h
  cases h with
  | refl => exact .refl .refl _
  | stateT bases m h => exact hgo (.runStateT bases m h s)
  | _ => exact .fault _

theorem bindWith (m : Comp F P) (h : Fn.Linked c f f') :
    Run.Match (Datum.Linked c) (m.bindWith go f) (m.bindWith go f') := by
  cases m with
  | some v => exact (hgo (.call h v)).bind fun _ _ h => h.ensure _ _
  | nothing => exact .pure (.refl _)
  | identity v => exact (hgo (.call h v)).bind fun _ _ h => h.ensure _ _
  | reader m =>
    simp only [Comp.bindWith, h.callable_eq]
    split
    · exact .pure (.reader m h)
    · exact .fault _
  | state m =>
    simp only [Comp.bindWith, h.callable_eq]
    split
    · exact .pure (.state m h)
    · exact .fault _
  | readerT bases m => exact .pure (.readerT bases m h)
  | stateT bases m => exact .pure (.stateT bases m h)
  | maybeT bases inner =>
    simp only [Comp.bindWith]
    split
    · exact .fault _
    · exact (hgo (.bind inner (.thenMaybe bases h))).bind fun _ _ h => .pure (.maybeT bases h)

/-- The rest of a body and the callback for it: both resume the body, and bind what it yields to
linked functions. -/
theorem resume (hc : host.Chains c) (he : c.effect ≠ .maybe) (p : P) (x : Datum F P) :
    Run.Match (Datum.Linked c) ((Fn.resume c.effect p).callWith host go [x])
      ((Fn.host (c.link p)).callWith host go [x]) := by
  simp only [Fn.callWith, hc.link, Chain.advance]
  refine (Run.Match.refl (fun _ => rfl) _).bind fun progress _ h => ?_
  subst h
  cases progress with
  | returned v => exact .refl .refl _
  | yielded d rest =>
    cases d with
    | comp m =>
      have hbind : Run.Match (Datum.Linked c) (go (.bind (.comp m) (.resume c.effect rest)))
          (go (.bind (.comp m) (.host (c.link rest)))) := hgo (.bind _ (.resume rest))
      dsimp only
      split
      · exact absurd ‹_› he
      · exact hbind
    | _ => exact .fault _

theorem callWith (hc : host.Chains c) (he : c.effect ≠ .maybe) (h : Fn.Linked c f f')
    (x : Datum F P) :
    Run.Match (Datum.Linked c) (f.callWith host go [x]) (f'.callWith host go [x]) := by
  cases h with
  | refl => exact .refl .refl _
  | start =>
    simp only [Fn.callWith, hc.first]
    refine (Run.Match.refl (fun _ => rfl) _).bind fun p _ h => ?_
    subst h
    exact hgo (.call (.resume p) .null)
  | resume p => exact hgo.resume hc he p x
  | thenReader bases env h =>
    refine (hgo (.call h x)).bind fun _ _ h => (h.ensure _ _).bind fun _ _ h => ?_
    exact hgo.runReaderT env h
  | thenState bases h =>
    refine (Run.Match.refl (fun _ => rfl) _).bind fun p _ hp => ?_
    subst hp
    refine (hgo (.call h p.2)).bind fun _ _ h => (h.ensure _ _).bind fun _ _ h => ?_
    exact hgo.runStateT p.1 h
  | thenMaybe bases h =>
    simp only [Fn.callWith]
    split
    · next v =>
      refine (hgo (.call h v)).bind fun _ _ h => (h.ensure _ _).bind fun _ _ h => ?_
      cases h with
      | refl => exact .refl .refl _
      | maybeT bases h => exact .pure h
      | _ => exact .fault _
    · exact .refl .refl _

theorem attempt (hc : host.Chains c) (he : c.effect ≠ .maybe) :
    Performer.InStep c fun t => t.attempt host go := by
  intro R t t' h
  cases h with
  | call h x => exact hgo.callWith hc he h x
  | bind d h =>
    cases d with
    | comp m => exact hgo.bindWith m h
    | _ => exact .fault _
  | runReader m h env =>
    refine (Run.Match.refl (fun _ => rfl) _).bind fun v _ hv => ?_
    subst hv
    exact (hgo (.call h v)).bind fun _ _ h => hgo.runReader env h
  | @runState pending pending' m m' hstep h s =>
    simp only [Task.attempt]
    generalize m.unwind pending = current at hstep h
    generalize m'.unwind pending' = current' at hstep h
    obtain ⟨st, pending⟩ := current
    obtain ⟨st', pending'⟩ := current'
    cases hstep
    refine (Run.Match.refl (fun _ => rfl) (st.runWith go s)).bind fun p _ hp => ?_
    subst hp
    cases h with
    | nil => exact .refl (fun _ => rfl) _
    | cons h hp => exact (hgo (.call h p.2)).bind fun _ _ h => hgo.runState hp p.1 h
  | runReaderT bases m h env =>
    refine (Run.Match.refl (fun _ => rfl) _).bind fun d _ hd => ?_
    subst hd
    exact hgo (.bind d (.thenReader bases env h))
  | runStateT bases m h s =>
    refine (Run.Match.refl (fun _ => rfl) _).bind fun d _ hd => ?_
    subst hd
    exact hgo (.bind d (.thenState bases h))

end Performer.InStep

/-- **Linked tasks go in step**, at every bound. -/
theorem perform_linked (hc : host.Chains c) (he : c.effect ≠ .maybe) (n : Nat) :
    (perform host n).InStep c := by
  induction n with
  | zero => exact fun _ _ _ _ => .unfinished
  | succ n ih => exact ih.attempt hc he

/-! ## Complete runs -/

/-- Computations of one kind whose runs go in step. -/
theorem Datum.runAs_match {go : Performer σ F P} {R : Datum F P → Datum F P → Prop}
    {m m' : Comp F P} (heffect : m.effect = m'.effect) (hkind : m.kind = m'.kind) (e : Effect)
    {input : Option (Datum F P)} (hrun : Run.Match R (m.run go input) (m'.run go input)) :
    Run.Match R ((Datum.comp m).runAs go e input) ((Datum.comp m').runAs go e input) := by
  by_cases hm : m.effect = e
  · rw [runAs_comp go hm, runAs_comp go (heffect ▸ hm)]
    exact hrun
  · have hm' : m'.effect ≠ e := heffect ▸ hm
    simp only [Datum.runAs, Datum.ofEffect, hm, hm', hkind]
    exact .fault _

/-- Runs of linked computations give linked data. -/
theorem Datum.Linked.runAs {go : Performer σ F P} (hgo : go.InStep c) (h : Datum.Linked c d d')
    (e : Effect) (input : Option (Datum F P)) :
    Run.Match (Datum.Linked c) (d.runAs go e input) (d'.runAs go e input) := by
  have linked : ∀ a b : Datum F P, a = b → Datum.Linked c a b := fun a _ h => h ▸ .refl a
  cases h with
  | refl => exact .refl .refl _
  | reader m h =>
    refine runAs_match (by rfl) (by rfl) e ?_
    cases input with
    | none => exact .fault _
    | some env => exact (hgo (.runReader m h env)).mono linked
  | @state m f f' h =>
    refine runAs_match (by rfl) (by rfl) e ?_
    obtain ⟨hstep, hrest⟩ := m.unwind_linked (.cons h .nil)
    cases input with
    | none => exact .fault _
    | some s =>
      refine Run.Match.mono (hgo (Task.Linked.runState ?_ ?_ s)) linked
      · exact hstep
      · exact hrest
  | readerT bases m h =>
    refine runAs_match (by rfl) (by rfl) e ?_
    cases input with
    | none => exact .fault _
    | some env => exact hgo (.runReaderT bases m h env)
  | stateT bases m h =>
    refine runAs_match (by rfl) (by rfl) e ?_
    cases input with
    | none => exact .fault _
    | some s => exact hgo (.runStateT bases m h s)
  | maybeT bases h =>
    refine runAs_match (by rfl) (by rfl) e ?_
    cases input with
    | none => exact .pure h
    | some _ => exact .fault _

/-- Complete runs of linked computations end in the same way. -/
theorem Effect.complete_linked {go : Performer σ F P} (hgo : go.InStep c) (e : Effect)
    {d d' : Datum F P} (h : Datum.Linked c d d') (inputs : Inputs F P) :
    e.complete go d inputs = e.complete go d' inputs := by
  match e with
  | .maybe | .identity => cases h <;> rfl
  | .reader =>
    cases h with
    | reader m h => exact (hgo (.runReader m h _)).eq
    | _ => rfl
  | .state =>
    cases h with
    | @state m f f' h =>
      obtain ⟨hstep, hrest⟩ := m.unwind_linked (.cons h .nil)
      refine (hgo (Task.Linked.runState ?_ ?_ _)).eq
      · exact hstep
      · exact hrest
    | _ => rfl
  | .transformer layer .bare => cases h <;> rfl
  | .transformer .reader (.onto inner base)
  | .transformer .state (.onto inner base)
  | .transformer .maybe (.onto inner base) =>
    refine ((h.runAs hgo _ _).bind fun d d' h => ?_).eq
    rw [complete_linked hgo base h]
    exact .refl (fun _ => rfl) _

end EffectCalculus
