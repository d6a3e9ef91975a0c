import EffectCalculus.Proofs.Effect.Laws
import EffectCalculus.Proofs.Run.Keeps

/-!
# Shapes within a bound

The binder of a computation may make further computations whose binders make more, without end. So
that such a computation has the right shape is not said by recursion on anything in it. With a bound
it is: up to a bound, a computation has the right shape if everything that happens within this bound
does, and a binder is only called within a smaller one.

* `Effect.ShapedAt`: the shape of a computation, as far as it shows within a bound;
  `Effect.shaped_iff`: it has the shape if it does within every bound;
* `Host.perform_runState_append`: the last binder on the stack of a state program is called with
  what comes out without it;
* `Host.unit_keeps`, `Host.bind_keeps`, `Host.map_keeps`, `Host.resume_keeps`: **units, binds, maps
  and blocks have the right shape within a bound**, if what they call does within a smaller one;
* `Host.complete_keeps`: so complete runs meet with nothing unexpected.
-/

namespace EffectCalculus

open Run

variable {σ F P : Type}

/-! ## Shapes -/

/-- As far as it shows within the bound `n`, the datum is a computation of exactly the effect: all
that its runs give has the shape of the layer below, its results have the property `Q`, and its
faults the property `A`. -/
def Effect.ShapedAt (host : Host σ F P) (A : EffectError → Prop) (n : Nat) :
    Effect → (Datum F P → Prop) → Datum F P → Prop
  | .maybe, Q, d => IsOptional Q d
  | .identity, Q, d => ∃ v, d = .comp (.identity v) ∧ Q v
  | .reader, Q, d =>
    ∃ m, d = .comp (.reader m) ∧ ∀ env, (perform host n (.runReader m env)).Keeps A Q
  | .state, Q, d =>
    ∃ m, d = .comp (.state m) ∧ ∀ s, (perform host n (.runState [] m s)).Keeps A (IsPair Q)
  | .transformer _ .bare, _, _ => False
  | .transformer .reader (.onto inner base), Q, d =>
    ∃ m, d = .comp (.readerT (.onto inner base) m) ∧ ∀ env,
      (perform host n (.runReaderT (.onto inner base) m env)).Keeps A (base.ShapedAt host A n Q)
  | .transformer .state (.onto inner base), Q, d =>
    ∃ m, d = .comp (.stateT (.onto inner base) m) ∧ ∀ s,
      (perform host n (.runStateT (.onto inner base) m s)).Keeps A
        (base.ShapedAt host A n (IsPair Q))
  | .transformer .maybe (.onto inner base), Q, d =>
    ∃ c, d = .comp (.maybeT (.onto inner base) c) ∧ base.ShapedAt host A n (IsOptional Q) c

variable {host : Host σ F P} {A : EffectError → Prop} {e : Effect} {Q R : Datum F P → Prop}
  {d : Datum F P} {f : Fn F P} {m n : Nat}

theorem IsPair.mono (hQ : ∀ v, Q v → R v) (h : IsPair Q d) : IsPair R d := by
  obtain ⟨s, v, rfl, hv⟩ := h
  exact ⟨s, v, rfl, hQ v hv⟩

theorem IsOptional.mono (hQ : ∀ v, Q v → R v) (h : IsOptional Q d) : IsOptional R d := by
  obtain rfl | ⟨v, rfl, hv⟩ := h
  · exact .inl rfl
  · exact .inr ⟨v, rfl, hQ v hv⟩

namespace Effect.ShapedAt

theorem exists_effect (hd : e.ShapedAt host A n Q d) : ∃ c, d = .comp c ∧ c.effect = e := by
  match e with
  | .maybe =>
    obtain rfl | ⟨v, rfl, -⟩ := hd
    · exact ⟨_, rfl, rfl⟩
    · exact ⟨_, rfl, rfl⟩
  | .identity | .reader | .state
  | .transformer .reader (.onto _ _)
  | .transformer .state (.onto _ _)
  | .transformer .maybe (.onto _ _) =>
    obtain ⟨_, rfl, -⟩ := hd
    exact ⟨_, rfl, rfl⟩
  | .transformer _ .bare => exact hd.elim

theorem ensure (hd : e.ShapedAt host A n Q d) (slot : Slot) :
    (d.ensure slot e : Act σ (Datum F P)) = pure d := by
  obtain ⟨c, rfl, rfl⟩ := hd.exists_effect
  simp [Datum.ensure, Datum.isA, Effect.isA_refl]

/-- Within a smaller bound less shows. -/
theorem weaken (hs : host.Steady) (hmn : m ≤ n) (e : Effect) {Q R : Datum F P → Prop}
    {d : Datum F P} (hQ : ∀ v, Q v → R v) (hd : e.ShapedAt host A n Q d) :
    e.ShapedAt host A m R d := by
  match e with
  | .maybe => exact IsOptional.mono hQ hd
  | .identity =>
    obtain ⟨v, rfl, hv⟩ := hd
    exact ⟨v, rfl, hQ v hv⟩
  | .reader =>
    obtain ⟨p, rfl, hp⟩ := hd
    exact ⟨p, rfl, fun env => ((hp env).of_below (perform_below hs hmn _)).mono hQ⟩
  | .state =>
    obtain ⟨p, rfl, hp⟩ := hd
    exact ⟨p, rfl, fun s =>
      ((hp s).of_below (perform_below hs hmn _)).mono fun _ => IsPair.mono hQ⟩
  | .transformer _ .bare => exact hd.elim
  | .transformer .reader (.onto _ base) =>
    obtain ⟨p, rfl, hp⟩ := hd
    exact ⟨p, rfl, fun env => ((hp env).of_below (perform_below hs hmn _)).mono fun _ =>
      weaken hs hmn base hQ⟩
  | .transformer .state (.onto _ base) =>
    obtain ⟨p, rfl, hp⟩ := hd
    exact ⟨p, rfl, fun s => ((hp s).of_below (perform_below hs hmn _)).mono fun _ =>
      weaken hs hmn base fun _ => IsPair.mono hQ⟩
  | .transformer .maybe (.onto _ base) =>
    obtain ⟨c, rfl, hc⟩ := hd
    exact ⟨c, rfl, weaken hs hmn base (fun _ => IsOptional.mono hQ) hc⟩

end Effect.ShapedAt

theorem StateProg.unwind_append (m : StateProg F P) (pending last : List (Fn F P)) :
    m.unwind (pending ++ last) = ((m.unwind pending).1, (m.unwind pending).2 ++ last) := by
  match m with
  | .step _ => rfl
  | .bind m f => exact StateProg.unwind_append m (f :: pending) last

/-! ## Without a bound -/

theorem Host.yields_iff_keeps {t : Task F P} :
    host.Yields t Q ↔ ∀ n, (perform host n t).Keeps (fun _ => True) Q := by
  constructor
  · intro h n w w'
    exact ⟨fun _ _ => trivial, fun d hd => h w d w' ⟨by simp, n, hd⟩⟩
  · rintro h w d w' ⟨-, n, hd⟩
    exact (h n w w').2 d hd

/-- Results that have the shape within each bound, as far as it shows there, have it as far as it
shows within any. -/
theorem Host.yields_shapedAt (hs : host.Steady) {t : Task F P}
    (h : ∀ n, (perform host n t).Keeps (fun _ => True) (e.ShapedAt host A n Q)) :
    host.Yields t fun d => ∀ n, e.ShapedAt host A n Q d := by
  rintro w d w' ⟨-, k, hk⟩ n
  change perform host k t w = (.done d, w') at hk
  have hmax : perform host (max k n) t w = (.done d, w') := by
    rw [perform_below hs (Nat.le_max_left k n) t w (by simp [hk]), hk]
  exact Effect.ShapedAt.weaken hs (Nat.le_max_right k n) e (fun _ => id) ((h _ w w').2 d hmax)

theorem Effect.shaped_iff (hs : host.Steady) (e : Effect) {Q : Datum F P → Prop} {d : Datum F P} :
    e.Shaped host Q d ↔ ∀ n, e.ShapedAt host (fun _ => True) n Q d := by
  match e with
  | .maybe | .identity => exact ⟨fun h _ => h, fun h => h 0⟩
  | .reader | .state =>
    constructor
    · rintro ⟨p, rfl, hp⟩ n
      exact ⟨p, rfl, fun input => Host.yields_iff_keeps.mp (hp input) n⟩
    · intro h
      obtain ⟨p, rfl, -⟩ := h 0
      refine ⟨p, rfl, fun input => Host.yields_iff_keeps.mpr fun n => ?_⟩
      obtain ⟨_, ⟨⟩, hp⟩ := h n
      exact hp input
  | .transformer _ .bare => exact ⟨fun h _ => h, fun h => h 0⟩
  | .transformer .reader (.onto _ base) | .transformer .state (.onto _ base) =>
    constructor
    · rintro ⟨p, rfl, hp⟩ n
      refine ⟨p, rfl, fun input => ?_⟩
      exact (Host.yields_iff_keeps.mp (hp input) n).mono fun _ hd => (shaped_iff hs base).mp hd n
    · intro h
      obtain ⟨p, rfl, -⟩ := h 0
      refine ⟨p, rfl, fun input => ?_⟩
      have hall := Host.yields_shapedAt hs fun n => by
        obtain ⟨_, ⟨⟩, hp⟩ := h n
        exact hp input
      exact fun w d w' hd => (shaped_iff hs base).mpr (hall w d w' hd)
  | .transformer .maybe (.onto _ base) =>
    constructor
    · rintro ⟨c, rfl, hc⟩ n
      exact ⟨c, rfl, (shaped_iff hs base).mp hc n⟩
    · intro h
      obtain ⟨c, rfl, -⟩ := h 0
      refine ⟨c, rfl, (shaped_iff hs base).mpr fun n => ?_⟩
      obtain ⟨_, ⟨⟩, hc⟩ := h n
      exact hc

theorem Host.yields_shaped_iff (hs : host.Steady) {t : Task F P} :
    host.Yields t (e.Shaped host Q) ↔
      ∀ n, (perform host n t).Keeps (fun _ => True) (e.ShapedAt host (fun _ => True) n Q) := by
  constructor
  · intro h n
    exact (yields_iff_keeps.mp h n).mono fun _ hd => (Effect.shaped_iff hs e).mp hd n
  · intro h w d w' hd
    exact (Effect.shaped_iff hs e).mpr (yields_shapedAt hs h w d w' hd)

namespace Host

/-! ## Units -/

/-- A property of everything that is done within a bound need only be shown for positive bounds. -/
theorem perform_keeps {t : Task F P} {Q : Datum F P → Prop}
    (h : ∀ k, k + 1 = n → (t.attempt host (perform host k)).Keeps A Q) :
    (perform host n t).Keeps A Q := by
  cases n with
  | zero => exact Keeps.unfinished
  | succ k => exact h k rfl

/-- The shape of a state program over a base, by what its steps come to. -/
theorem shaped_stateT (hs : host.Steady) {inner : Bases} {base : Effect} {m : StateTProg F P}
    (h : ∀ n s, (m.runWith (perform host n) (.onto inner base) s).Keeps (fun _ => True)
      (base.ShapedAt host (fun _ => True) (n + 1) (IsPair Q))) :
    Effect.Shaped host (.transformer .state (.onto inner base)) Q
      (.comp (.stateT (.onto inner base) m)) := by
  refine (Effect.shaped_iff hs _).mpr fun n => ⟨m, rfl, fun s => perform_keeps fun k hk => ?_⟩
  subst hk
  exact h k s

theorem unit_keeps (he : e.IsStack) {v : Datum F P} (hv : Q v) (n : Nat) :
    (unitOf e v : Act σ (Datum F P)).Keeps A (e.ShapedAt host A n Q) := by
  induction he generalizing Q v with
  | maybe => exact Keeps.pure (.inr ⟨v, rfl, hv⟩)
  | identity => exact Keeps.pure ⟨v, rfl, hv⟩
  | reader =>
    refine Keeps.pure ⟨_, rfl, fun env => perform_keeps fun k _ => ?_⟩
    exact Keeps.pure hv
  | state =>
    refine Keeps.pure ⟨_, rfl, fun s => perform_keeps fun k _ => ?_⟩
    exact Keeps.pure ⟨s, v, rfl, hv⟩
  | layered layer inner _ ih =>
    cases layer with
    | reader =>
      refine Keeps.pure ⟨_, rfl, fun env => perform_keeps fun k _ => ?_⟩
      exact ih hv
    | state =>
      refine Keeps.pure ⟨_, rfl, fun s => perform_keeps fun k _ => ?_⟩
      exact ih ⟨s, v, rfl, hv⟩
    | maybe =>
      rw [unitOf_maybeT]
      have hsome : IsOptional Q (.comp (.some v)) := .inr ⟨v, rfl, hv⟩
      exact (ih hsome).bind fun d hd => Keeps.pure ⟨d, rfl, hd⟩

/-! ## The last binder of a state program -/

/-- What the loop does with a pair that is given to its last binder. -/
def lastBinder (go : Performer σ F P) (f : Fn F P) (p : Datum F P) : Act σ (Datum F P) := do
  let (s, v) ← Run.ofExcept p.pair
  let next ← go (.call f [v])
  match next with
  | .comp (.state m) => go (.runState [] m s)
  | d => Run.fault (.wrongEffect .binder .state d.kind)

theorem lastBinder_follows (f : Fn F P) (p : Datum F P) :
    Follows fun go : Performer σ F P => lastBinder go f p := by
  refine (Follows.const _).bind fun (s, v) => (Follows.task _).bind fun next => ?_
  split
  · exact Follows.task _
  · exact Follows.const _

/-- The step of the induction: the programs that earlier binders make are run within the smaller
bound. -/
theorem perform_runState_append_step {f : Fn F P} {n : Nat}
    (ih : ∀ pending m s, Below (perform host n (.runState (pending ++ [f]) m s))
      (perform host n (.runState pending m s) >>= lastBinder (perform host n) f))
    (pending : List (Fn F P)) (m : StateProg F P) (s : Datum F P) :
    Below (perform host (n + 1) (.runState (pending ++ [f]) m s))
      (perform host (n + 1) (.runState pending m s) >>= lastBinder (perform host n) f) := by
  change Below (Task.attempt host (perform host n) (.runState (pending ++ [f]) m s))
    (Task.attempt host (perform host n) (.runState pending m s) >>= _)
  simp only [Task.attempt, StateProg.unwind_append, bind_assoc]
  refine (Below.refl _).bind fun p => ?_
  obtain ⟨s, v⟩ := p
  generalize (m.unwind pending).2 = rest
  cases rest with
  | nil => exact Below.refl _
  | cons g rest =>
    simp only [List.cons_append, bind_assoc]
    refine (Below.refl _).bind fun next => ?_
    cases next with
    | comp c =>
      cases c with
      | state m => exact ih rest m s
      | _ => exact Below.refl _
    | _ => exact Below.refl _

/-- With one more binder at the end of the stack, the loop ends only where it ends without it and
this binder goes on. The binder is called within a smaller bound. -/
theorem perform_runState_append (hs : host.Steady) (n : Nat) (pending : List (Fn F P)) (f : Fn F P)
    (m : StateProg F P) (s : Datum F P) :
    Below (perform host (n + 1) (.runState (pending ++ [f]) m s))
      (perform host (n + 1) (.runState pending m s) >>= lastBinder (perform host n) f) := by
  induction n generalizing pending m s with
  | zero =>
    refine perform_runState_append_step (fun _ _ _ => ?_) pending m s
    exact unfinished_below _
  | succ n ih =>
    refine perform_runState_append_step (fun pending m s => ?_) pending m s
    refine (ih pending m s).trans ((Below.refl _).bind fun p => ?_)
    exact lastBinder_follows f p (perform_below_succ hs n)

section Steady

variable (hs : host.Steady)

include hs

/-! ## Going on in the base -/

theorem thenReader_keeps {inner : Bases} {base : Effect} {v : Datum F P}
    (hf : (perform host n (.call f [v])).Keeps A
      (Effect.ShapedAt host A n (.transformer .reader (.onto inner base)) R)) (env : Datum F P) :
    (perform host n (.call (.thenReader (.onto inner base) f env) [v])).Keeps A
      (base.ShapedAt host A n R) := by
  refine perform_keeps fun k hk => ?_
  have hle : k ≤ n := by omega
  refine (hf.of_below (perform_below hs hle _)).bind fun d hd => ?_
  rw [hd.ensure, pure_bind]
  obtain ⟨p, rfl, hp⟩ := hd
  exact (hp env).of_below (perform_below hs hle _)

theorem thenState_keeps {inner : Bases} {base : Effect} {v : Datum F P}
    (hf : (perform host n (.call f [v])).Keeps A
      (Effect.ShapedAt host A n (.transformer .state (.onto inner base)) R)) (s : Datum F P) :
    (perform host n (.call (.thenState (.onto inner base) f) [.tuple [s, v]])).Keeps A
      (base.ShapedAt host A n (IsPair R)) := by
  refine perform_keeps fun k hk => ?_
  have hle : k ≤ n := by omega
  refine (hf.of_below (perform_below hs hle _)).bind fun d hd => ?_
  rw [hd.ensure, pure_bind]
  obtain ⟨p, rfl, hp⟩ := hd
  exact (hp s).of_below (perform_below hs hle _)

theorem thenMaybe_keeps {inner : Bases} {base : Effect} (hb : base.IsStack)
    (hf : ∀ v, Q v → (perform host n (.call f [v])).Keeps A
      (Effect.ShapedAt host A n (.transformer .maybe (.onto inner base)) R)) {o : Datum F P}
    (ho : IsOptional Q o) :
    (perform host n (.call (.thenMaybe (.onto inner base) f) [o])).Keeps A
      (base.ShapedAt host A n (IsOptional R)) := by
  refine perform_keeps fun k hk => ?_
  have hle : k ≤ n := by omega
  obtain rfl | ⟨v, rfl, hv⟩ := ho
  · exact unit_keeps hb (.inl rfl) n
  · refine ((hf v hv).of_below (perform_below hs hle _)).bind fun d hd => ?_
    rw [hd.ensure, pure_bind]
    obtain ⟨c, rfl, hc⟩ := hd
    exact Keeps.pure hc

/-! ## Binding and mapping -/

/-- **Binding keeps the shape within a bound.** -/
theorem bind_keeps (he : e.IsStack) (hd : e.ShapedAt host A (n + 1) Q d)
    (hf : f.callable = true)
    (hcall : ∀ v, Q v → (perform host n (.call f [v])).Keeps A (e.ShapedAt host A n R)) :
    (perform host (n + 1) (.bind d f)).Keeps A (e.ShapedAt host A (n + 1) R) := by
  induction he generalizing Q R d f with
  | maybe =>
    obtain rfl | ⟨v, rfl, hv⟩ := hd
    · exact Keeps.pure (.inl rfl)
    · refine (hcall v hv).bind fun d hd => ?_
      rw [hd.ensure]
      exact Keeps.pure hd
  | identity =>
    obtain ⟨v, rfl, hv⟩ := hd
    refine (hcall v hv).bind fun d hd => ?_
    rw [hd.ensure]
    exact Keeps.pure hd
  | reader =>
    obtain ⟨m, rfl, hm⟩ := hd
    simp only [perform, Task.attempt, Comp.bindWith, hf, ↓reduceIte]
    refine Keeps.pure ⟨_, rfl, fun env => ?_⟩
    refine (hm env).bind fun v hv => (hcall v hv).bind fun d hd => ?_
    obtain ⟨m, rfl, hm⟩ := hd
    exact hm env
  | state =>
    obtain ⟨m, rfl, hm⟩ := hd
    simp only [perform, Task.attempt, Comp.bindWith, hf, ↓reduceIte]
    refine Keeps.pure ⟨_, rfl, fun s => ?_⟩
    refine Keeps.of_below ?_ (perform_runState_append hs n [] f m s)
    refine (hm s).bind fun p hp => ?_
    obtain ⟨s, v, rfl, hv⟩ := hp
    refine (hcall v hv).bind fun d hd => ?_
    obtain ⟨m, rfl, hm⟩ := hd
    exact hm s
  | @layered layer inner base hb ih =>
    have hsmaller := perform_below_succ hs n
    cases layer with
    | reader =>
      obtain ⟨m, rfl, hm⟩ := hd
      refine Keeps.pure ⟨_, rfl, fun env => (hm env).bind fun c hc => ?_⟩
      refine (ih hc rfl fun v hv => ?_).of_below (hsmaller _)
      exact thenReader_keeps hs (hcall v hv) env
    | state =>
      obtain ⟨m, rfl, hm⟩ := hd
      refine Keeps.pure ⟨_, rfl, fun s => (hm s).bind fun c hc => ?_⟩
      refine (ih hc rfl fun p hp => ?_).of_below (hsmaller _)
      obtain ⟨s, v, rfl, hv⟩ := hp
      exact thenState_keeps hs (hcall v hv) s
    | maybe =>
      obtain ⟨c, rfl, hc⟩ := hd
      have hbase := (ih hc rfl fun o ho => thenMaybe_keeps hs hb hcall ho).of_below (hsmaller _)
      exact hbase.bind fun d hd => Keeps.pure ⟨d, rfl, hd⟩

omit hs in
theorem unitAfter_keeps (he : e.IsStack) {args : List (Datum F P)} {k : Nat}
    (hf : (perform host k (.call f args)).Keeps A R) (n : Nat) :
    (perform host (k + 1) (.call (.unitAfter e f) args)).Keeps A (e.ShapedAt host A n R) :=
  hf.bind fun _ hv => unit_keeps he hv n

/-- **Mapping keeps the shape within a bound.** -/
theorem map_keeps (he : e.IsStack) (hd : e.ShapedAt host A (n + 1) Q d) (hf : f.callable = true)
    (hcall : ∀ v, Q v → (perform host n (.call f [v])).Keeps A R) :
    (perform host (n + 1) (.map d f)).Keeps A (e.ShapedAt host A (n + 1) R) := by
  have hbind : (perform host (n + 1) (.bind d (.unitAfter e f))).Keeps A
      (e.ShapedAt host A (n + 1) R) := by
    refine bind_keeps hs he hd rfl fun v hv => ?_
    exact (unitAfter_keeps he (hcall v hv) n).of_below (perform_below_succ hs n _)
  have hbind' := hbind.of_below (perform_below_succ hs n _)
  cases he with
  | maybe =>
    obtain rfl | ⟨v, rfl, hv⟩ := hd
    · exact Keeps.pure (.inl rfl)
    · exact (hcall v hv).bind fun v hv => Keeps.pure (.inr ⟨v, rfl, hv⟩)
  | reader =>
    obtain ⟨m, rfl, hm⟩ := hd
    exact Keeps.pure ⟨_, rfl, fun env => (hm env).bind hcall⟩
  | state =>
    obtain ⟨m, rfl, hm⟩ := hd
    exact hbind
  | identity =>
    obtain ⟨v, rfl, hv⟩ := hd
    simp only [perform, Task.attempt, Comp.mapWith, hf, ↓reduceIte]
    exact hbind'
  | layered layer =>
    cases layer <;>
    · obtain ⟨c, rfl, -⟩ := hd
      simp only [perform, Task.attempt, Comp.mapWith, hf, ↓reduceIte]
      exact hbind'

/-! ## Blocks -/

/-- A body that is right: it returns, or it yields a computation of the right shape and goes on at a
place of `S`. -/
def Orderly (Y : Datum F P → Prop) (S : P → Prop) : Progress F P → Prop
  | .yielded d rest => Y d ∧ S rest
  | .returned _ => True

omit hs in
theorem Orderly.mono {Y Y' : Datum F P → Prop} {S S' : P → Prop} {progress : Progress F P}
    (h : Orderly Y S progress) (hY : ∀ d, Y d → Y' d) (hS : ∀ p, S p → S' p) :
    Orderly Y' S' progress := by
  cases progress with
  | returned v => trivial
  | yielded d rest => exact ⟨hY d h.1, hS rest h.2⟩

/-- **Going on with a body keeps the shape within a bound.** -/
theorem resume_keeps (he : e.IsStack) {S : P → Prop} {p : P} {x : Datum F P}
    (hresume : (host.resume (perform host n) p x).Keeps A
      (Orderly (e.ShapedAt host A (n + 1) fun _ => True) S))
    (hrest : ∀ q, S q → ∀ y,
      (perform host n (.call (.resume e q) [y])).Keeps A (e.ShapedAt host A n fun _ => True)) :
    (perform host (n + 1) (.call (.resume e p) [x])).Keeps A
      (e.ShapedAt host A (n + 1) fun _ => True) := by
  refine hresume.bind fun progress hprogress => ?_
  cases progress with
  | returned v => exact unit_keeps he trivial (n + 1)
  | yielded d q =>
    obtain ⟨hd, hq⟩ := hprogress
    have hbind := (bind_keeps hs he hd rfl fun v _ => hrest q hq v).of_below
      (perform_below_succ hs n _)
    cases he with
    | maybe =>
      obtain rfl | ⟨v, rfl, -⟩ := hd
      · exact hbind
      · exact hrest q hq v
    | layered layer =>
      cases layer <;>
      · obtain ⟨c, rfl, -⟩ := hd
        exact hbind
    | _ =>
      obtain ⟨c, rfl, -⟩ := hd
      exact hbind

/-- A body is opened and then gone on with, within a smaller bound. -/
theorem start_keeps {S : P → Prop} {body : F}
    (hstart : (host.start (perform host n) body).Keeps A S)
    (hresume : ∀ p, S p → (perform host (n + 1) (.call (.resume e p) [.null])).Keeps A
      (e.ShapedAt host A (n + 1) R)) (args : List (Datum F P)) :
    (perform host (n + 1) (.call (.start e body) args)).Keeps A (e.ShapedAt host A (n + 1) R) :=
  hstart.bind fun p hp => (hresume p hp).of_below (perform_below_succ hs n _)

end Steady

/-- Binding keeps the shape, also where the binder relies on the results that it gets. -/
theorem bind_yields (hs : host.Steady) (he : e.IsStack) (hd : e.Shaped host Q d)
    (hf : f.callable = true) (hcall : ∀ v, Q v → host.Yields (.call f [v]) (e.Shaped host R)) :
    host.Yields (.bind d f) (e.Shaped host R) := by
  refine (yields_shaped_iff hs).mpr fun n => ?_
  cases n with
  | zero => exact Keeps.unfinished
  | succ n =>
    exact bind_keeps hs he ((Effect.shaped_iff hs e).mp hd (n + 1)) hf fun v hv =>
      (yields_shaped_iff hs).mp (hcall v hv) n

/-- So does mapping. -/
theorem map_yields (hs : host.Steady) (he : e.IsStack) (hd : e.Shaped host Q d)
    (hf : f.callable = true) (hcall : ∀ v, Q v → host.Yields (.call f [v]) R) :
    host.Yields (.map d f) (e.Shaped host R) := by
  refine (yields_shaped_iff hs).mpr fun n => ?_
  cases n with
  | zero => exact Keeps.unfinished
  | succ n =>
    exact map_keeps hs he ((Effect.shaped_iff hs e).mp hd (n + 1)) hf fun v hv =>
      yields_iff_keeps.mp (hcall v hv) n

/-! ## Complete runs -/

/-- A complete run has no fault beyond those of the computation. -/
theorem complete_keeps (e : Effect) {Q : Datum F P → Prop} {d : Datum F P}
    (hd : e.ShapedAt host A n Q d) (inputs : Inputs F P) :
    (e.complete (perform host n) d inputs).Keeps A fun _ => True := by
  match e with
  | .maybe =>
    obtain rfl | ⟨v, rfl, -⟩ := hd <;> exact Keeps.pure trivial
  | .identity =>
    obtain ⟨v, rfl, -⟩ := hd
    exact Keeps.pure trivial
  | .reader =>
    obtain ⟨m, rfl, hm⟩ := hd
    exact (hm inputs.head).mono fun _ _ => trivial
  | .state =>
    obtain ⟨m, rfl, hm⟩ := hd
    exact (hm inputs.head).mono fun _ _ => trivial
  | .transformer _ .bare => exact hd.elim
  | .transformer .reader (.onto inner base) =>
    obtain ⟨m, rfl, hm⟩ := hd
    simp only [Effect.complete, Datum.runAs_readerT]
    exact (hm inputs.head).bind fun d hd => complete_keeps base hd inputs.tail
  | .transformer .state (.onto inner base) =>
    obtain ⟨m, rfl, hm⟩ := hd
    simp only [Effect.complete, Datum.runAs_stateT]
    exact (hm inputs.head).bind fun d hd => complete_keeps base hd inputs.tail
  | .transformer .maybe (.onto inner base) =>
    obtain ⟨c, rfl, hc⟩ := hd
    simp only [Effect.complete, Datum.runAs_maybeT, pure_bind]
    exact complete_keeps base hc inputs

end Host

end EffectCalculus
