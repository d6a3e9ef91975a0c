import EffectCalculus.Proofs.Effect.Chain
import EffectCalculus.Proofs.Effect.Foreign
import EffectCalculus.Proofs.Effect.Laws
import EffectCalculus.Proofs.Run.Track

/-!
# Guarded blocks

A guarded block does what the block does, but looks at the effect of every computation that its body
yields, and raises an alarm as soon as one is not of the effect of the block. Without the guard such
a computation goes unnoticed at first, yet the block does not get away with it: a check of what is
bound to it, of what it is bound to, or of the block as a whole fails later on, if nothing else
fails before and the body comes to an end at all.

* `Host.Guards`: the callbacks of a host that guard a body;
* `Fn.Watched`, `Datum.Watched`, `Task.Watched`: the rest of a body and its guarded callback, and
  computations and tasks in which one stands for the other; what a function gives is checked for
  some effect, which is part of the relation;
* `perform_watched`: **watched tasks go in step until the alarm**;
* `block_rejects_foreign`: **a block whose body yields a foreign computation never completes**;
* `block_foreign_hollow_or_endless`: it need not fail by a check, and need not end.
-/

namespace EffectCalculus

open Run

variable {σ F P : Type}

/-- Goes on with a body as a block does, and raises the alarm if it yields a computation that is not
of the effect of the block. -/
def Chain.guarded (c : Chain F P) (alarm : EffectError) (host : Host σ F P) (go : Performer σ F P)
    (p : P) (sent : Datum F P) : Act σ (Datum F P) := do
  match ← host.resume go p sent with
  | .returned v => unitOf c.effect v
  | .yielded (.comp m) rest =>
    if m.effect.isA c.effect then m.handTo go c.effect (.host (c.link rest)) else Run.fault alarm
  | .yielded d _ => Run.fault (.badYield d.kind c.effect)

/-- The callbacks of the chain open the body and go on with it, guarded. -/
structure Host.Guards (host : Host σ F P) (c : Chain F P) (alarm : EffectError) : Prop where
  first (go : Performer σ F P) (x : Datum F P) :
    host.call go c.first [x] =
      host.start go c.body >>= fun p => go (.call (.host (c.link p)) [.null])
  link (go : Performer σ F P) (p : P) (x : Datum F P) :
    host.call go (c.link p) [x] = c.guarded alarm host go p x

/-! ## Watched functions -/

/-- The second function has guarded callbacks where the first goes on with the block. What it gives
is checked for the effect `s`, which fails for whatever is not of the effect of the block. The
functions of the transformers check what they are made of themselves, so for them `s` is any. -/
inductive Fn.Watched (host : Host σ F P) (c : Chain F P) : Effect → Fn F P → Fn F P → Prop
  | refl (s : Effect) (f : Fn F P) : Watched host c s f f
  | start {s : Effect} (hs : s.isA c.effect = true) :
    Watched host c s (.start c.effect c.body) (.host c.first)
  | resume {s : Effect} (hs : s.isA c.effect = true) {p : P} (hp : host.Visits c.body p) :
    Watched host c s (.resume c.effect p) (.host (c.link p))
  | thenReader (s : Effect) (bases : Bases) (env : Datum F P) {f f' : Fn F P}
    (h : Watched host c (.transformer .reader bases) f f') :
    Watched host c s (.thenReader bases f env) (.thenReader bases f' env)
  | thenState (s : Effect) (bases : Bases) {f f' : Fn F P}
    (h : Watched host c (.transformer .state bases) f f') :
    Watched host c s (.thenState bases f) (.thenState bases f')
  | thenMaybe (s : Effect) (bases : Bases) {f f' : Fn F P}
    (h : Watched host c (.transformer .maybe bases) f f') :
    Watched host c s (.thenMaybe bases f) (.thenMaybe bases f')

/-- The computations differ only in their outermost binders, which are watched. -/
inductive Datum.Watched (host : Host σ F P) (c : Chain F P) : Datum F P → Datum F P → Prop
  | refl (d : Datum F P) : Watched host c d d
  | reader (m : ReaderProg F P) {f f' : Fn F P} (h : Fn.Watched host c .reader f f') :
    Watched host c (.comp (.reader (.bind m f))) (.comp (.reader (.bind m f')))
  | state (m : StateProg F P) {f f' : Fn F P} (h : Fn.Watched host c .state f f') :
    Watched host c (.comp (.state (.bind m f))) (.comp (.state (.bind m f')))
  | readerT (bases : Bases) (m : ReaderTProg F P) {f f' : Fn F P}
    (h : Fn.Watched host c (.transformer .reader bases) f f') :
    Watched host c (.comp (.readerT bases (.bind m f))) (.comp (.readerT bases (.bind m f')))
  | stateT (bases : Bases) (m : StateTProg F P) {f f' : Fn F P}
    (h : Fn.Watched host c (.transformer .state bases) f f') :
    Watched host c (.comp (.stateT bases (.bind m f))) (.comp (.stateT bases (.bind m f')))
  | maybeT (bases : Bases) {d d' : Datum F P} (h : Watched host c d d') :
    Watched host c (.comp (.maybeT bases d)) (.comp (.maybeT bases d'))

/-- Tasks with watched functions. In front stand the relation of their results, and what is left of
the results once the alarm is raised: a call gives nothing that passes the check of the function,
and all other tasks make that check themselves. -/
inductive Task.Watched (host : Host σ F P) (c : Chain F P) :
    (Datum F P → Datum F P → Prop) → (Datum F P → Prop) → Task F P → Task F P → Prop
  | call {s : Effect} {f f' : Fn F P} (h : Fn.Watched host c s f f') (x : Datum F P) :
    Watched host c (Datum.Watched host c) (fun r => r.isA s = false) (.call f [x]) (.call f' [x])
  | bind {d : Datum F P} {f f' : Fn F P} (h : ∀ m, d = .comp m → Fn.Watched host c m.effect f f') :
    Watched host c (Datum.Watched host c) (fun _ => False) (.bind d f) (.bind d f')
  | runReader (m : ReaderProg F P) {f f' : Fn F P} (h : Fn.Watched host c .reader f f')
    (env : Datum F P) :
    Watched host c Eq (fun _ => False) (.runReader (.bind m f) env) (.runReader (.bind m f') env)
  | runState {pending pending' : List (Fn F P)} {m m' : StateProg F P}
    (hstep : (m.unwind pending).1 = (m'.unwind pending').1)
    (h : List.Forall₂ (Fn.Watched host c .state) (m.unwind pending).2 (m'.unwind pending').2)
    (s : Datum F P) :
    Watched host c Eq (fun _ => False) (.runState pending m s) (.runState pending' m' s)
  | runReaderT (bases : Bases) (m : ReaderTProg F P) {f f' : Fn F P}
    (h : Fn.Watched host c (.transformer .reader bases) f f') (env : Datum F P) :
    Watched host c (Datum.Watched host c) (fun _ => False) (.runReaderT bases (.bind m f) env)
      (.runReaderT bases (.bind m f') env)
  | runStateT (bases : Bases) (m : StateTProg F P) {f f' : Fn F P}
    (h : Fn.Watched host c (.transformer .state bases) f f') (s : Datum F P) :
    Watched host c (Datum.Watched host c) (fun _ => False) (.runStateT bases (.bind m f) s)
      (.runStateT bases (.bind m f') s)

variable {host : Host σ F P} {c : Chain F P} {alarm : EffectError} {s : Effect} {f f' : Fn F P}
  {d d' : Datum F P} {n : Nat}

theorem Fn.Watched.callable_eq (h : Fn.Watched host c s f f') : f.callable = f'.callable := by
  cases h <;> rfl

/-- Binders that are put on watched stacks leave watched stacks. -/
theorem StateProg.unwind_watched (m : StateProg F P) {pending pending' : List (Fn F P)}
    (h : List.Forall₂ (Fn.Watched host c .state) pending pending') :
    (m.unwind pending).1 = (m.unwind pending').1 ∧
      List.Forall₂ (Fn.Watched host c .state) (m.unwind pending).2 (m.unwind pending').2 := by
  match m with
  | .step _ => exact ⟨rfl, h⟩
  | .bind m f => exact unwind_watched m (.cons (.refl _ f) h)

/-! ## One step -/

/-- The alarm may be raised in the world `w`: in a turn that leaves this world, the body has yielded
a foreign computation. From there on, the block does what is `known`: it hands the computation to
the rest of the body. -/
def Host.Alarms (host : Host σ F P) (c : Chain F P) (w : σ) (known : Nat → Act σ (Datum F P)) :
    Prop :=
  ∃ t m q, host.Visits c.body t.place ∧ host.Takes t (.done (.yielded (.comp m) q)) w ∧
    m.effect.isA c.effect = false ∧
    known = fun n => (Progress.yielded (.comp m) q).enter (perform host n) c.effect

/-- The guarded action `m` goes in step with the actions `r` until the alarm. -/
abbrev Host.InStep (host : Host σ F P) (c : Chain F P) (alarm : EffectError) {α β : Type}
    (R : α → β → Prop) (Q : α → Prop) (n : Nat) (r : Nat → Act σ α) (m : Act σ β) : Prop :=
  Tracks alarm (fun err => err.isCheck = true) (host.Alarms c) R Q n r m

/-- An action that hands out the same tasks on both sides. -/
theorem Host.Steady.inStep (hs : host.Steady) {α : Type} {g : Performer σ F P → Act σ α}
    (hg : Follows g) {R : α → α → Prop} (hR : ∀ a, R a a) {Q : α → Prop} :
    host.InStep c alarm R Q n (fun k => g (perform host k)) (g (perform host n)) := by
  refine (Tracks.of_rising (hs.rising hg) n).mono ?_ fun _ h => h
  rintro a _ rfl
  exact hR a

/-- An action that hands out the same tasks on both sides, and then something else, from the world
that the action leaves. -/
theorem Host.Steady.inStep_bind (hs : host.Steady) {α β : Type} {g : Performer σ F P → Act σ α}
    (hg : Follows g) {R : β → β → Prop} {Q : β → Prop} {k : Nat → α → Act σ β} {k' : α → Act σ β}
    (hk : ∀ a w w', Settles (fun i => g (perform host i)) w (.done a) w' →
      Tracked alarm (fun err => err.isCheck = true) (host.Alarms c) R Q n (fun i => k i a) (k' a)
        w') :
    host.InStep c alarm R Q n (fun i => g (perform host i) >>= k i)
      (g (perform host n) >>= k') := by
  intro w
  have hfirst : Tracked alarm (fun err => err.isCheck = true) (host.Alarms c) Eq (fun _ => False) n
      (fun i => g (perform host i)) (g (perform host n)) w := Tracks.of_rising (hs.rising hg) n w
  refine hfirst.bind ?_ fun _ => False.elim
  rintro a _ w' hdone rfl
  exact hk a w w' ⟨by simp, n, hdone⟩

/-- What is not of the effect is not let pass. -/
theorem Datum.ensure_refused (h : d.isA s = false) (slot : Slot) :
    ∃ err : EffectError, err.isCheck = true ∧
      ∀ _ : Nat, (d.ensure slot s : Act σ (Datum F P)) = Run.fault err := by
  refine ⟨.wrongEffect slot s d.kind, rfl, fun _ => ?_⟩
  simp only [Datum.ensure, h, Bool.false_eq_true, if_false]

theorem Datum.runReader_refused (h : d.isA .reader = false) (env : Datum F P) :
    ∃ err : EffectError, err.isCheck = true ∧ ∀ k, (match d with
      | .comp (.reader m) => perform host k (.runReader m env)
      | d => Run.fault (.wrongEffect .binder .reader d.kind)) = Run.fault err := by
  refine ⟨.wrongEffect .binder .reader d.kind, rfl, fun k => ?_⟩
  split
  · cases h
  · rfl

theorem Datum.runState_refused (h : d.isA .state = false) (pending : List (Fn F P))
    (s : Datum F P) :
    ∃ err : EffectError, err.isCheck = true ∧ ∀ k, (match d with
      | .comp (.state m) => perform host k (.runState pending m s)
      | d => Run.fault (.wrongEffect .binder .state d.kind)) = Run.fault err := by
  refine ⟨.wrongEffect .binder .state d.kind, rfl, fun k => ?_⟩
  split
  · cases h
  · rfl

namespace Datum.Watched

theorem kind_eq (h : Datum.Watched host c d d') : d.kind = d'.kind := by
  cases h <;> rfl

theorem isA_eq (h : Datum.Watched host c d d') (e : Effect) : d.isA e = d'.isA e := by
  cases h <;> rfl

theorem ensure (h : Datum.Watched host c d d') (slot : Slot) (e : Effect) :
    host.InStep c alarm (Datum.Watched host c) (fun _ => False) n (fun _ => d.ensure slot e)
      (d'.ensure slot e) := by
  unfold Datum.ensure
  rw [h.isA_eq, h.kind_eq]
  split
  · exact .pure h
  · exact .fault _

end Datum.Watched

/-- Within the bound `n`, watched tasks are done in step. -/
def Host.Watches (host : Host σ F P) (c : Chain F P) (alarm : EffectError) (n : Nat) : Prop :=
  ∀ ⦃R Q t t'⦄, Task.Watched host c R Q t t' →
    host.InStep c alarm R Q n (fun k => perform host k t) (perform host n t')

namespace Host.Watches

variable (hs : host.Steady) (hn : host.Watches c alarm n)

include hs hn

/-- Running watched readers that a binder has made. -/
theorem runReader (env : Datum F P) :
    Datum.Watched host c d d' → host.InStep c alarm Eq (fun _ => False) n
      (fun k => match d with
        | .comp (.reader m) => perform host k (.runReader m env)
        | d => Run.fault (.wrongEffect .binder .reader d.kind))
      (match d' with
        | .comp (.reader m) => perform host n (.runReader m env)
        | d => Run.fault (.wrongEffect .binder .reader d.kind)) := by
  intro h
  cases h with
  | refl =>
    cases d with
    | comp m =>
      cases m with
      | reader m => exact hs.inStep (Follows.task _) fun _ => rfl
      | _ => exact .fault _
    | _ => exact .fault _
  | reader m h => exact hn (.runReader m h env)
  | _ => exact .fault _

omit hs in
theorem runState {pending pending' : List (Fn F P)}
    (hp : List.Forall₂ (Fn.Watched host c .state) pending pending') (s : Datum F P) :
    Datum.Watched host c d d' → host.InStep c alarm Eq (fun _ => False) n
      (fun k => match d with
        | .comp (.state m) => perform host k (.runState pending m s)
        | d => Run.fault (.wrongEffect .binder .state d.kind))
      (match d' with
        | .comp (.state m) => perform host n (.runState pending' m s)
        | d => Run.fault (.wrongEffect .binder .state d.kind)) := by
  intro h
  cases h with
  | refl =>
    cases d with
    | comp m =>
      cases m with
      | state m =>
        obtain ⟨hstep, hrest⟩ := m.unwind_watched hp
        exact hn (.runState hstep hrest s)
      | _ => exact .fault _
    | _ => exact .fault _
  | @state m f f' h =>
    obtain ⟨hstep, hrest⟩ := m.unwind_watched (.cons h hp)
    apply hn
    apply Task.Watched.runState
    · exact hstep
    · exact hrest
  | _ => exact .fault _

theorem runReaderT (env : Datum F P) :
    Datum.Watched host c d d' → host.InStep c alarm (Datum.Watched host c) (fun _ => False) n
      (fun k => match d with
        | .comp (.readerT bases m) => perform host k (.runReaderT bases m env)
        | d => Run.fault (.unsupported "run" d.kind))
      (match d' with
        | .comp (.readerT bases m) => perform host n (.runReaderT bases m env)
        | d => Run.fault (.unsupported "run" d.kind)) := by
  intro h
  cases h with
  | refl =>
    cases d with
    | comp m =>
      cases m with
      | readerT bases m => exact hs.inStep (Follows.task _) .refl
      | _ => exact .fault _
    | _ => exact .fault _
  | readerT bases m h => exact hn (.runReaderT bases m h env)
  | _ => exact .fault _

theorem runStateT (s : Datum F P) :
    Datum.Watched host c d d' → host.InStep c alarm (Datum.Watched host c) (fun _ => False) n
      (fun k => match d with
        | .comp (.stateT bases m) => perform host k (.runStateT bases m s)
        | d => Run.fault (.unsupported "run" d.kind))
      (match d' with
        | .comp (.stateT bases m) => perform host n (.runStateT bases m s)
        | d => Run.fault (.unsupported "run" d.kind)) := by
  intro h
  cases h with
  | refl =>
    cases d with
    | comp m =>
      cases m with
      | stateT bases m => exact hs.inStep (Follows.task _) .refl
      | _ => exact .fault _
    | _ => exact .fault _
  | stateT bases m h => exact hn (.runStateT bases m h s)
  | _ => exact .fault _

omit hs in
/-- A call whose result is checked: after the alarm, the check fails. -/
theorem call_ensure (h : Fn.Watched host c s f f') (x : Datum F P) (slot : Slot) :
    host.InStep c alarm (Datum.Watched host c) (fun _ => False) n
      (fun k => perform host k (.call f [x]) >>= fun next => next.ensure slot s)
      (perform host n (.call f' [x]) >>= fun next => next.ensure slot s) :=
  (hn (.call h x)).bind (fun _ _ h => h.ensure slot s) fun _ h => Datum.ensure_refused h slot

omit hs in
theorem bindWith (m : Comp F P) (h : Fn.Watched host c m.effect f f') :
    host.InStep c alarm (Datum.Watched host c) (fun _ => False) n
      (fun k => m.bindWith (perform host k) f) (m.bindWith (perform host n) f') := by
  cases m with
  | some v => exact hn.call_ensure h v .flatMap
  | nothing => exact .pure (.refl _)
  | identity v => exact hn.call_ensure h v .flatMap
  | reader m =>
    simp only [Comp.bindWith, h.callable_eq]
    split
    · exact .pure (.reader m h)
    · exact .fault _
  | state m =>
    simp only [Comp.bindWith, h.callable_eq]
    split
    · exact .pure (.state m h)
    · exact .fault _
  | readerT bases m => exact .pure (.readerT bases m h)
  | stateT bases m => exact .pure (.stateT bases m h)
  | maybeT bases inner =>
    simp only [Comp.bindWith]
    split
    · exact .fault _
    · have hinner := hn (.bind (d := inner) fun m _ => .thenMaybe m.effect bases h)
      exact hinner.bind (fun _ _ h => .pure (.maybeT bases h)) fun _ => False.elim

omit hs in
/-- Handing a computation of the effect to the rest of the body. -/
theorem handTo (hsc : s.isA c.effect = true) {m : Comp F P} (hm : m.effect.isA c.effect = true)
    {p : P} (hp : host.Visits c.body p) :
    host.InStep c alarm (Datum.Watched host c) (fun r => r.isA s = false) n
      (fun k => m.handTo (perform host k) c.effect (.resume c.effect p))
      (m.handTo (perform host n) c.effect (.host (c.link p))) := by
  rcases m.handTo_cases (σ := σ) c.effect with ⟨-, v, hcall⟩ | hbind
  · simp only [hcall]
    exact hn (.call (.resume hsc hp) v)
  · simp only [hbind]
    have hstep := hn (.bind fun m' (h : Datum.comp m = .comp m') =>
      .resume (by cases h; exact hm) hp)
    exact hstep.mono (fun _ _ h => h) fun _ => False.elim

/-- The rest of a body and the guarded callback for it. Both resume the body; a computation of the
effect is handed to watched functions, and any other raises the alarm. -/
theorem resume (hg : host.Guards c alarm) (hsc : s.isA c.effect = true) {p : P}
    (hp : host.Visits c.body p) (x : Datum F P) :
    host.InStep c alarm (Datum.Watched host c) (fun r => r.isA s = false) n
      (fun k => (Fn.resume c.effect p).callWith host (perform host k) [x])
      ((Fn.host (c.link p)).callWith host (perform host n) [x]) := by
  simp only [Fn.callWith_resume]
  show host.InStep c alarm (Datum.Watched host c) (fun r => r.isA s = false) n _
    (host.call (perform host n) (c.link p) [x])
  rw [hg.link, Chain.guarded]
  refine hs.inStep_bind (fun _ _ h => hs.resume h p x) fun progress w w' hprogress => ?_
  cases progress with
  | returned v =>
    exact hs.inStep (g := fun _ => unitOf c.effect v) (Follows.const _) Datum.Watched.refl w'
  | yielded d rest =>
    have hoffer : host.Offers p d rest := ⟨x, w, w', hprogress⟩
    cases d with
    | comp m =>
      dsimp only
      split
      · next hm => exact hn.handTo hsc hm (hp.resumed hoffer) w'
      · next hm =>
        have hforeign : m.effect.isA c.effect = false := Bool.eq_false_iff.mpr hm
        refine Tracked.raised ⟨⟨p, x, w⟩, m, rest, hp, hprogress, hforeign, rfl⟩ ?_
        -- The fast path is for computations of the effect, so a foreign one is bound to the rest.
        intro k r w₁ hr
        rcases m.handTo_cases (σ := σ) c.effect with ⟨hm', -⟩ | hbind
        · exact absurd hm' hm
        · change m.handTo (perform host k) c.effect (.resume c.effect rest) w' = (.done r, w₁) at hr
          rw [hbind] at hr
          rw [(Host.perform_binds (.comp m) rfl).isA hs hr, Bool.eq_false_iff]
          -- Whatever is checked for is a special case of the effect of the block, and `m` is not.
          exact fun hms => hm (Effect.isA_trans hms hsc)
    | _ => exact Tracks.fault _ w'

omit hs in
/-- A call whose result is checked and then used: after the alarm, it is not used. -/
theorem call_ensure_bind {t : Effect} {Q : Datum F P → Prop} (h : Fn.Watched host c t f f')
    (x : Datum F P) (slot : Slot) {k : Nat → Datum F P → Act σ (Datum F P)}
    {k' : Datum F P → Act σ (Datum F P)}
    (hk : ∀ d d', Datum.Watched host c d d' →
      host.InStep c alarm (Datum.Watched host c) Q n (fun i => k i d) (k' d')) :
    host.InStep c alarm (Datum.Watched host c) Q n
      (fun i => perform host i (.call f [x]) >>= fun next => next.ensure slot t >>= k i)
      (perform host n (.call f' [x]) >>= fun next => next.ensure slot t >>= k') := by
  simp only [← bind_assoc]
  exact (hn.call_ensure h x slot).bind hk fun _ => False.elim

theorem callWith (hg : host.Guards c alarm) (h : Fn.Watched host c s f f') (x : Datum F P) :
    host.InStep c alarm (Datum.Watched host c) (fun r => r.isA s = false) n
      (fun k => f.callWith host (perform host k) [x]) (f'.callWith host (perform host n) [x]) := by
  have never : ∀ a : Datum F P, False → a.isA s = false := fun _ => False.elim
  cases h with
  | refl => exact hs.inStep (fun _ _ h => Fn.callWith_below hs h _ _) .refl
  | start hsc =>
    simp only [Fn.callWith, hg.first]
    refine hs.inStep_bind (fun _ _ h => hs.start h c.body) fun p w w' hp => ?_
    exact hn (.call (.resume hsc (.opened hp)) .null) w'
  | resume hsc hp => exact hn.resume hs hg hsc hp x
  | thenReader _ bases env h =>
    exact hn.call_ensure_bind h x .binder fun _ _ h =>
      (hn.runReaderT hs env h).mono (fun _ _ h => h) never
  | thenState _ bases h =>
    refine hs.inStep_bind (Follows.const (Run.ofExcept x.pair)) fun p _ w' _ => ?_
    have hcall := hn.call_ensure_bind h p.2 .binder fun _ _ h =>
      (hn.runStateT hs p.1 h).mono (fun _ _ h => h) never
    exact hcall w'
  | thenMaybe _ bases h =>
    simp only [Fn.callWith]
    split
    · next v =>
      refine hn.call_ensure_bind h v .binder fun d d' h => ?_
      cases h with
      | refl => exact hs.inStep (Follows.const _) .refl
      | maybeT bases h => exact .pure h
      | _ => exact .fault _
    · exact hs.inStep (Follows.const _) .refl

theorem attempt (hg : host.Guards c alarm) {R : Datum F P → Datum F P → Prop}
    {Q : Datum F P → Prop} {t t' : Task F P} (h : Task.Watched host c R Q t t') :
    host.InStep c alarm R Q n (fun k => t.attempt host (perform host k))
      (t'.attempt host (perform host n)) := by
  cases h with
  | call h x => exact hn.callWith hs hg h x
  | @bind d f f' h =>
    cases d with
    | comp m => exact hn.bindWith m (h m rfl)
    | _ => exact .fault _
  | runReader m h env =>
    refine hs.inStep_bind (fun _ _ h => ReaderProg.runWith_below h m env) fun v _ w' _ => ?_
    refine Tracks.bind (hn (.call h v)) (fun _ _ h => hn.runReader hs env h) (fun r hr => ?_) w'
    exact Datum.runReader_refused hr env
  | @runState pending pending' m m' hstep h s =>
    simp only [Task.attempt]
    generalize m.unwind pending = current at hstep h
    generalize m'.unwind pending' = current' at hstep h
    obtain ⟨st, pending⟩ := current
    obtain ⟨st', pending'⟩ := current'
    cases hstep
    refine hs.inStep_bind (fun _ _ h => StateStep.runWith_below h st s) fun p _ w' _ => ?_
    cases h with
    | nil => exact Tracks.pure rfl w'
    | cons h hp =>
      refine Tracks.bind (hn (.call h p.2)) (fun _ _ h => hn.runState hp p.1 h) (fun r hr => ?_) w'
      exact Datum.runState_refused hr _ p.1
  | runReaderT bases m h env =>
    refine hs.inStep_bind (fun _ _ h => ReaderTProg.runWith_below h bases m env) fun d _ w' _ => ?_
    exact hn (.bind fun m _ => .thenReader m.effect bases env h) w'
  | runStateT bases m h s =>
    refine hs.inStep_bind (fun _ _ h => StateTProg.runWith_below h bases m s) fun d _ w' _ => ?_
    exact hn (.bind fun m _ => .thenState m.effect bases h) w'

end Host.Watches

/-- **Watched tasks go in step until the alarm**, at every bound. -/
theorem perform_watched (hs : host.Steady) (hg : host.Guards c alarm) (n : Nat) :
    host.Watches c alarm n := by
  induction n with
  | zero => exact fun _ _ _ _ _ => .unfinished rfl
  | succ n ih => exact fun _ _ _ _ h => .succ (ih.attempt hs hg h)

/-! ## Complete runs -/

namespace Host.Watches

variable (hs : host.Steady) (hn : host.Watches c alarm n)

/-- Computations of one kind whose runs go in step. -/
theorem runAs_comp {R : Datum F P → Datum F P → Prop} {Q : Datum F P → Prop} {m m' : Comp F P}
    (heffect : m.effect = m'.effect) (hkind : m.kind = m'.kind) (e : Effect)
    {input : Option (Datum F P)}
    (hrun : host.InStep c alarm R Q n (fun k => m.run (perform host k) input)
      (m'.run (perform host n) input)) :
    host.InStep c alarm R Q n (fun k => (Datum.comp m).runAs (perform host k) e input)
      ((Datum.comp m').runAs (perform host n) e input) := by
  by_cases hm : m.effect = e
  · simp only [Datum.runAs_comp _ hm, Datum.runAs_comp _ (heffect ▸ hm)]
    exact hrun
  · have hm' : m'.effect ≠ e := heffect ▸ hm
    simp only [Datum.runAs, Datum.ofEffect, hm, hm', hkind]
    exact .fault _

include hs hn

/-- Runs of watched computations give watched data. -/
theorem runAs (h : Datum.Watched host c d d') (e : Effect) (input : Option (Datum F P)) :
    host.InStep c alarm (Datum.Watched host c) (fun _ => False) n
      (fun k => d.runAs (perform host k) e input) (d'.runAs (perform host n) e input) := by
  have watched : ∀ a b : Datum F P, a = b → Datum.Watched host c a b := fun a _ h => h ▸ .refl a
  cases h with
  | refl => exact hs.inStep (Datum.runAs_follows e input d) .refl
  | reader m h =>
    refine runAs_comp (by rfl) (by rfl) e ?_
    cases input with
    | none => exact .fault _
    | some env => exact (hn (.runReader m h env)).mono watched fun _ h => h
  | @state m f f' h =>
    refine runAs_comp (by rfl) (by rfl) e ?_
    obtain ⟨hstep, hrest⟩ := m.unwind_watched (.cons h .nil)
    cases input with
    | none => exact .fault _
    | some s =>
      refine Tracks.mono (hn (Task.Watched.runState ?_ ?_ s)) watched fun _ h => h
      · exact hstep
      · exact hrest
  | readerT bases m h =>
    refine runAs_comp (by rfl) (by rfl) e ?_
    cases input with
    | none => exact .fault _
    | some env => exact hn (.runReaderT bases m h env)
  | stateT bases m h =>
    refine runAs_comp (by rfl) (by rfl) e ?_
    cases input with
    | none => exact .fault _
    | some s => exact hn (.runStateT bases m h s)
  | maybeT bases h =>
    refine runAs_comp (by rfl) (by rfl) e ?_
    cases input with
    | none => exact .pure h
    | some _ => exact .fault _

/-- Complete runs of watched computations end in the same way, up to the alarm. -/
theorem complete (e : Effect) {d d' : Datum F P} (h : Datum.Watched host c d d')
    (inputs : Inputs F P) :
    host.InStep c alarm Eq (fun _ => False) n (fun k => e.complete (perform host k) d inputs)
      (e.complete (perform host n) d' inputs) := by
  match e with
  | .maybe =>
    cases h with
    | refl => exact hs.inStep (Follows.const _) fun _ => rfl
    | _ => exact .fault _
  | .identity =>
    cases h with
    | refl => exact hs.inStep (Datum.runAs_follows _ _ d) fun _ => rfl
    | _ => exact .fault _
  | .reader =>
    cases h with
    | refl => exact hs.inStep (Datum.runAs_follows _ _ d) fun _ => rfl
    | reader m h => exact hn (.runReader m h _)
    | _ => exact .fault _
  | .state =>
    cases h with
    | refl => exact hs.inStep (Datum.runAs_follows _ _ d) fun _ => rfl
    | @state m f f' h =>
      obtain ⟨hstep, hrest⟩ := m.unwind_watched (.cons h .nil)
      refine hn (Task.Watched.runState ?_ ?_ _)
      · exact hstep
      · exact hrest
    | _ => exact .fault _
  | .transformer layer .bare => exact .fault _
  | .transformer .maybe (.onto inner base) =>
    exact (hn.runAs hs h _ _).bind (fun _ _ h => complete base h _) fun _ => False.elim
  | .transformer .reader (.onto inner base) | .transformer .state (.onto inner base) =>
    exact (hn.runAs hs h _ _).bind (fun _ _ h => complete base h _) fun _ => False.elim

end Host.Watches

/-! ## Blocks -/

/-- Builds the block for the body and runs it completely. -/
def Chain.runBlock (c : Chain F P) (host : Host σ F P) (inputs : Inputs F P) :
    Nat → Act σ (Datum F P) :=
  host.completes c.effect inputs fun go => block go c.effect (.start c.effect c.body)

/-- Builds the guarded block for the body and runs it completely. -/
def Chain.runGuarded (c : Chain F P) (host : Host σ F P) (inputs : Inputs F P) :
    Nat → Act σ (Datum F P) :=
  host.completes c.effect inputs fun go => block go c.effect (.host c.first)

theorem Chain.runBlock_rising (hs : host.Steady) (c : Chain F P) (inputs : Inputs F P) :
    Rising (c.runBlock host inputs) := by
  have build : Follows fun go : Performer σ F P => block go c.effect (.start c.effect c.body) :=
    (Follows.const _).bind fun _ => Follows.task _
  exact hs.rising (build.bind fun d => c.effect.complete_follows d inputs)

/-- The block and its guarded form go in step until the alarm, and nothing comes out after it. -/
theorem Chain.runGuarded_inStep (hs : host.Steady) (hg : host.Guards c alarm)
    (inputs : Inputs F P) (n : Nat) :
    host.InStep c alarm Eq (fun _ => False) n (c.runBlock host inputs)
      (c.runGuarded host inputs n) := by
  have hn := perform_watched hs hg n
  have build : host.InStep c alarm (Datum.Watched host c) (fun _ => False) n
      (fun k => block (perform host k) c.effect (.start c.effect c.body))
      (block (perform host n) c.effect (.host c.first)) := by
    cases hunit : c.effect.unit (F := F) (P := P) .null with
    | error err =>
      simp only [block, unitOf, hunit]
      exact .fault err
    | ok m =>
      simp only [block, unitOf, hunit]
      refine hn (.bind fun m' h => .start ?_)
      cases h
      rw [Effect.effect_of_unit hunit]
      exact Effect.isA_refl c.effect
  exact build.bind (fun _ _ h => hn.complete hs c.effect h inputs) fun _ => False.elim

/-- The sample bodies: one strays after a computation of the effect, one yields a maybe transformer
without a computation in it, and one strays and then goes on for ever. -/
inductive Trip
  | detour
  | hollow
  | endless

/-- Where a sample body stands. -/
inductive Waypoint
  | opened (trip : Trip)
  | asked
  | strayed
  | circling

/-- The sample bodies, and their guarded callbacks. -/
inductive Leg
  | body (trip : Trip)
  | first (trip : Trip)
  | link (trip : Trip) (p : Waypoint)

/-- The alarm of the sample host. -/
abbrev tripAlarm : EffectError := .raised "foreign"

def Trip.chain (trip : Trip) : Chain Leg Waypoint where
  effect :=
    match trip with
    | .detour => .optionalReader
    | .hollow | .endless => .maybe
  body := .body trip
  first := .first trip
  link := .link trip

/-- After a foreign computation, the bodies go on as if nothing had happened. -/
def Waypoint.resume (v : Datum Leg Waypoint) : Waypoint → Progress Leg Waypoint
  | .opened .detour => .yielded (.comp (.readerT (.onto .bare .maybe) .ask)) .asked
  | .opened .hollow => .yielded (.comp (.maybeT (.onto .bare .maybe) (.int 5))) .strayed
  | .opened .endless | .circling => .yielded (.comp (.identity v)) .circling
  | .asked => .yielded (.comp (.state (.step (.put v)))) .strayed
  | .strayed => .returned v

/-- The sample host without its callbacks. -/
def bystander : Host Unit Leg Waypoint where
  call _ _ _ := Run.fault (.raised "call")
  start _ body :=
    match body with
    | .body trip | .first trip | .link trip _ => return .opened trip
  resume _ p v := return p.resume v

def trips : Host Unit Leg Waypoint where
  call go f args :=
    match f, args with
    | .first trip, [_] =>
      bystander.start go (.body trip) >>= fun p => go (.call (.host (.link trip p)) [.null])
    | .link trip p, [x] => trip.chain.guarded tripAlarm bystander go p x
    | _, _ => Run.fault (.raised "call")
  start := bystander.start
  resume := bystander.resume

theorem trips_steady : trips.Steady where
  call := by
    intro go go' h f args
    dsimp only [trips]
    split
    · exact (Below.refl _).bind fun p => h _
    · next trip p x =>
      refine (Below.refl _).bind fun progress => ?_
      cases progress with
      | returned v => exact Below.refl _
      | yielded d rest =>
        cases d with
        | comp m =>
          dsimp only
          split
          · exact Comp.handTo_follows _ _ _ h
          · exact Below.refl _
        | _ => exact Below.refl _
    · exact Below.refl _
  start _ _ := Below.refl _
  resume _ _ _ := Below.refl _

theorem trips_guards (trip : Trip) : trips.Guards trip.chain tripAlarm where
  first _ _ := rfl
  link _ _ _ := rfl

theorem trips_circling (x : Datum Leg Waypoint) (w : Unit) :
    ¬ trips.Halts ⟨.circling, x, w⟩ := by
  intro h
  generalize ht : (⟨.circling, x, w⟩ : Turn Unit Leg Waypoint) = t at h
  induction h generalizing x w with
  | intro _ _ ih =>
    subst ht
    exact ih ⟨.circling, x, w⟩ (.intro ⟨by simp, 0, rfl⟩ rfl) x w rfl

theorem trips_endless (n : Nat) :
    (trips.fromTurn .maybe ⟨.opened .endless, .null, ()⟩ n).1 = .unfinished := by
  by_contra hend
  obtain ⟨-, next⟩ := Host.fromTurn_halts trips_steady hend
  exact trips_circling .null () (next _ (.intro ⟨by simp, 0, rfl⟩ rfl))

/-- The block for the endless body, from its turn on. -/
theorem runBlock_endless (inputs : Inputs Leg Waypoint) (n : Nat) :
    (Trip.endless.chain.runBlock trips inputs n ()).1 = .unfinished := by
  have hblock : ∀ n, Trip.endless.chain.runBlock trips inputs (n + 2) =
      perform trips n (.call (.resume .maybe (.opened .endless)) [.null]) >>= (fun d =>
        d.ensure .flatMap .maybe) >>= fun d =>
          Effect.maybe.complete (perform trips (n + 2)) d inputs := fun n => rfl
  match n with
  | 0 | 1 => rfl
  | n + 2 =>
    have hturn := trips_endless n
    rcases hend : trips.fromTurn .maybe ⟨.opened .endless, .null, ()⟩ n with ⟨out, w⟩
    rw [hend] at hturn
    cases hturn
    rw [hblock, Run.bind_unfinished (Run.bind_unfinished hend _)]

end EffectCalculus
