import EffectCalculus.Proofs.Effect.Approximation

/-!
# Blocks within blocks

A block may yield another block and go on with its result; or the steps of the other body may stand
in its place; or the rest may be bound to the other block. The three are the same computation, as
far as complete runs can tell, whatever the bodies do: they may branch and loop on what they are
given, and they may go on without end.

* `Host.Tidy`: bodies that yield only computations of the right shape;
* `Host.runs`, `Host.runs_eq`: **a body runs step by step**: what it yields is run, and it goes on
  with the result;
* `Host.runs_le`: the least such run;
* `Composition`, `Host.Composes`: a body followed by another, nested, in place and bound;
* `block_compose`: **the three are one computation**.
-/

namespace EffectCalculus

open Run Unbounded

variable {σ F P α : Type}

/-! ## Bodies -/

/-- Whenever the action gives something, it has the property `Q`. -/
def Host.Gives (host : Host σ F P) (act : Performer σ F P → Act σ α) (Q : α → Prop) : Prop :=
  ∀ w a w', Settles (fun n => act (perform host n)) w (.done a) w' → Q a

/-- From a place of `S`, a body yields only computations of exactly the effect, and comes to places
of `S`. -/
def Host.Tidy (host : Host σ F P) (e : Effect) (S : P → Prop) : Prop :=
  ∀ p, S p → ∀ x, host.Gives (fun go => host.resume go p x)
    (Orderly (e.Shaped host fun _ => True) S)

variable {host : Host σ F P} {e : Effect} {Q : Datum F P → Prop} {S : P → Prop} {d : Datum F P}

/-- A present result is given back at once, and every other computation is bound to the rest. -/
theorem Effect.Shaped.enter (hd : e.Shaped host Q d) (rest : P) :
    (∃ v, e = .maybe ∧ d = .comp (.some v) ∧ ∀ go : Performer σ F P,
      (Progress.yielded d rest).enter go e = go (.call (.resume e rest) [v])) ∨
    ∀ go : Performer σ F P,
      (Progress.yielded d rest).enter go e = go (.bind d (.resume e rest)) := by
  obtain ⟨c, rfl, rfl⟩ := hd.exists_effect
  cases c with
  | some v => exact .inl ⟨v, rfl, rfl, fun _ => rfl⟩
  | _ => exact .inr fun _ => rfl

namespace Host

theorem Gives.keeps {act : Performer σ F P → Act σ α} {Q : α → Prop} (h : host.Gives act Q)
    (n : Nat) : (act (perform host n)).Keeps (fun _ => True) Q :=
  fun w w' => ⟨fun _ _ => trivial, fun a ha => h w a w' ⟨by simp, n, ha⟩⟩

section Steady

variable (hs : host.Steady)

include hs

theorem gives_iff {act : Performer σ F P → Act σ α} (hact : Follows act) {Q : α → Prop} :
    host.Gives act Q ↔ (host.unbounded act).Ensures Q := by
  constructor
  · intro h w a w' ha
    exact h w a w' ((settles_done (hs.rising hact)).mpr ha)
  · intro h w a w' ha
    exact h w a w' ((settles_done (hs.rising hact)).mp ha)

theorem resume_follows (p : P) (x : Datum F P) :
    Follows fun go : Performer σ F P => host.resume go p x :=
  fun _ _ h => hs.resume h p x

theorem start_follows (body : F) : Follows fun go : Performer σ F P => host.start go body :=
  fun _ _ h => hs.start h body

theorem Tidy.ensures (hS : host.Tidy e S) {p : P} (hp : S p) (x : Datum F P) :
    (host.unbounded fun go => host.resume go p x).Ensures
      (Orderly (e.Shaped host fun _ => True) S) :=
  (gives_iff hs (resume_follows hs p x)).mp (hS p hp x)

/-- Going on with a tidy body gives computations of the right shape. -/
theorem Tidy.continues (hS : host.Tidy e S) (he : e.IsStack) {p : P} (hp : S p) :
    host.Continues e (fun _ => True) (.resume e p) := by
  refine ⟨rfl, fun x => (yields_shaped_iff hs).mpr fun n => ?_⟩
  induction n generalizing p x with
  | zero => exact Keeps.unfinished
  | succ n ih =>
    have hresume := ((hS p hp x).keeps n).mono fun progress h =>
      h.mono (fun d hd => (Effect.shaped_iff hs e).mp hd (n + 1)) fun _ hq => hq
    exact resume_keeps hs he hresume fun q hq y => ih hq y

/-! ## Runs of bodies -/

end Steady

/-- What follows when a body that stands at `p` is given a result. -/
noncomputable def runs (host : Host σ F P) (e : Effect) (κ : Continuation σ F P) (p : P) :
    Continuation σ F P :=
  host.called e (.resume e p) κ

/-- What follows within the bound `n`. -/
def runsWithin (host : Host σ F P) (n : Nat) (e : Effect) (κ : Continuation σ F P) (p : P) :
    Continuation σ F P :=
  calledBy (host.within n) e (.resume e p) κ

/-- What follows the progress of a body: its result goes to `κ`, and what it yields is run, with its
rest to follow. -/
noncomputable def follow (host : Host σ F P) (e : Effect) (κ : Continuation σ F P)
    (next : P → Continuation σ F P) (inputs : Inputs F P) :
    Progress F P → Unbounded EffectError σ (Datum F P)
  | .returned v => κ v inputs
  | .yielded d rest => host.proceed e d inputs (next rest)

section Steady

variable (hs : host.Steady)

include hs

theorem proceed_mono (e : Effect) (d : Datum F P) (inputs : Inputs F P) {κ κ' : Continuation σ F P}
    (hκ : ∀ v inputs, κ v inputs ≤ κ' v inputs) :
    host.proceed e d inputs κ ≤ host.proceed e d inputs κ' := by
  rw [← proceedBy_does hs, ← proceedBy_does hs]
  exact proceedBy_mono (fun _ => le_refl _) e d inputs hκ

/-- **A body runs step by step.** -/
theorem runs_eq (he : e.IsStack) (hS : host.Tidy e S) {p : P} (hp : S p) (κ : Continuation σ F P)
    (x : Datum F P) (inputs : Inputs F P) :
    host.runs e κ p x inputs =
      host.unbounded (fun go => host.resume go p x) >>= host.follow e κ (host.runs e κ) inputs := by
  rw [runs, called, does_eq hs]
  simp only [Task.attempt, Fn.callWith_resume]
  rw [unbounded_bind hs (resume_follows hs p x) (Progress.enter_follows e), bind_assoc]
  refine (hS.ensures hs hp x).bind_congr fun progress h => ?_
  cases progress with
  | returned v =>
    have hunit : host.unbounded (fun go => (Progress.returned v).enter go e) =
        (unitOf e v).result := unbounded_const _
    rw [hunit]
    exact proceed_unit hs he v inputs κ
  | yielded d q =>
    obtain ⟨hd, hq⟩ := h
    obtain ⟨v, rfl, rfl, hcall⟩ | hbind := hd.enter q
    · simp only [hcall]
      rfl
    · simp only [hbind]
      exact proceed_bind hs he hd (hS.continues hs he hq) inputs κ

/-- Within a bound, the rest of a body runs within a smaller one. -/
theorem runsWithin_succ_le (he : e.IsStack) (hS : host.Tidy e S) {p : P} (hp : S p)
    (κ : Continuation σ F P) (n : Nat) (x : Datum F P) (inputs : Inputs F P) :
    host.runsWithin (n + 1) e κ p x inputs ≤
      host.unbounded (fun go => host.resume go p x) >>=
        host.follow e κ (host.runsWithin n e κ) inputs := by
  rw [runsWithin, calledBy, within_succ]
  simp only [Task.attempt, Fn.callWith_resume, result_bind, bind_assoc]
  have hle := result_le_unbounded (hs.rising (resume_follows hs p x)) n
  refine ((hS.ensures hs hp x).of_le hle).bind_le_bind hle fun progress h => ?_
  cases progress with
  | returned v =>
    refine (bind_le_bind (le_refl _) fun d => proceedBy_within_le hs (n + 1) e d inputs κ).trans ?_
    exact le_of_eq (proceed_unit hs he v inputs κ)
  | yielded d q =>
    obtain ⟨hd, hq⟩ := h
    have hcontinues := hS.continues hs he hq
    obtain ⟨v, rfl, rfl, hcall⟩ | hbind := hd.enter q
    · rw [hcall]
      refine (within_ensures hs (hcontinues.2 v) n).bind_le_bind (le_refl _) fun d hd => ?_
      obtain rfl | ⟨v, rfl, -⟩ := hd <;> exact le_refl _
    · rw [hbind, follow]
      refine (bindsWithin hs he n (.inr n.le_succ) hd hcontinues inputs κ).trans ?_
      exact proceedBy_within_le hs (n + 1) e d inputs _

/-- What a body comes to is the least that is above all its approximations. -/
theorem runs_le {κ : Continuation σ F P} {p : P} {x : Datum F P} {inputs : Inputs F P}
    {u : Unbounded EffectError σ (Datum F P)}
    (h : ∀ n, host.runsWithin n e κ p x inputs ≤ u) : host.runs e κ p x inputs ≤ u :=
  called_le hs h

theorem runsWithin_le (n : Nat) (κ : Continuation σ F P) (p : P) (x : Datum F P)
    (inputs : Inputs F P) : host.runsWithin n e κ p x inputs ≤ host.runs e κ p x inputs :=
  calledBy_within_le hs n _ κ x inputs

theorem follow_mono (κ : Continuation σ F P) {next next' : P → Continuation σ F P}
    (h : ∀ p v inputs, next p v inputs ≤ next' p v inputs) (inputs : Inputs F P)
    (progress : Progress F P) :
    host.follow e κ next inputs progress ≤ host.follow e κ next' inputs progress := by
  cases progress with
  | returned v => exact le_refl _
  | yielded d q => exact proceed_mono hs e d inputs (h q)

/-! ## Opening a body -/

/-- What follows when a body is opened. -/
noncomputable def opens (host : Host σ F P) (e : Effect) (κ : Continuation σ F P) (body : F)
    (inputs : Inputs F P) : Unbounded EffectError σ (Datum F P) :=
  host.unbounded (fun go => host.start go body) >>= fun p => host.runs e κ p .null inputs

/-- A body is opened and does its first step. -/
noncomputable def enters (host : Host σ F P) (body : F) :
    Unbounded EffectError σ (Progress F P) :=
  host.unbounded (fun go => host.start go body) >>= fun p =>
    host.unbounded fun go => host.resume go p .null

theorem unbounded_enter (body : F) :
    host.unbounded (fun go => host.start go body >>= fun p => host.resume go p .null) =
      host.enters body :=
  unbounded_bind hs (start_follows hs body) fun p => resume_follows hs p .null

theorem enters_ensures (hS : host.Tidy e S) {body : F}
    (hbody : host.Gives (fun go => host.start go body) S) :
    (host.enters body).Ensures (Orderly (e.Shaped host fun _ => True) S) :=
  ((gives_iff hs (start_follows hs body)).mp hbody).bind fun _ hp => hS.ensures hs hp .null

theorem opens_eq (he : e.IsStack) (hS : host.Tidy e S) {body : F}
    (hbody : host.Gives (fun go => host.start go body) S) (κ : Continuation σ F P)
    (inputs : Inputs F P) :
    host.opens e κ body inputs =
      host.enters body >>= host.follow e κ (host.runs e κ) inputs := by
  rw [enters, bind_assoc]
  exact ((gives_iff hs (start_follows hs body)).mp hbody).bind_congr fun p hp =>
    runs_eq hs he hS hp κ .null inputs

theorem does_start (body : F) (args : List (Datum F P)) :
    host.does (.call (.start e body) args) =
      host.unbounded (fun go => host.start go body) >>= fun p =>
        host.does (.call (.resume e p) [.null]) := by
  rw [does_eq hs]
  exact unbounded_bind hs (start_follows hs body) fun p => Follows.task _

theorem start_continues (he : e.IsStack) (hS : host.Tidy e S) {body : F}
    (hbody : host.Gives (fun go => host.start go body) S) :
    host.Continues e (fun _ => True) (.start e body) := by
  refine ⟨rfl, fun x => (yields_iff hs).mpr ?_⟩
  rw [does_start hs]
  exact ((gives_iff hs (start_follows hs body)).mp hbody).bind fun p hp =>
    (hS.continues hs he hp).ensures hs .null

theorem unbounded_block (body : Fn F P) :
    host.unbounded (fun go => block go e body) =
      (unitOf e .null).result >>= fun d => host.does (.bind d body) := by
  refine (unbounded_bind hs (Follows.const _) fun d => Follows.task _).trans ?_
  rw [unbounded_const]
  rfl

theorem block_shaped (he : e.IsStack) (hS : host.Tidy e S) {body : F}
    (hbody : host.Gives (fun go => host.start go body) S) :
    (host.unbounded fun go => block go e (.start e body)).Ensures
      (e.Shaped host fun _ => True) := by
  rw [unbounded_block hs]
  exact (unit_shaped hs e (Q := fun _ => True) trivial).bind fun d hd =>
    bind_shaped hs e hd (start_continues hs he hS hbody)

/-- A block opens its body and goes on with its result. -/
theorem proceed_block (he : e.IsStack) (hS : host.Tidy e S) {body : F}
    (hbody : host.Gives (fun go => host.start go body) S) (inputs : Inputs F P)
    (κ : Continuation σ F P) :
    (host.unbounded (fun go => block go e (.start e body)) >>= fun d =>
      host.proceed e d inputs κ) = host.opens e κ body inputs := by
  have hstart := start_continues hs he hS hbody
  rw [unbounded_block hs, bind_assoc,
    (unit_shaped hs e (Q := fun _ => True) trivial).bind_congr fun d hd =>
      proceed_bind hs he hd hstart inputs κ,
    proceed_unit hs he, called, does_start hs, bind_assoc]
  rfl

end Steady

end Host

/-! ## One body after another -/

/-- A body that yields a block and goes on, with its two places; the same body with the block in
place, whose places are `inlining` those of the block; and a binder. -/
structure Composition (F P : Type) where
  nested : F
  opening : P
  awaiting : P
  inlined : F
  inlining : P → P
  binder : F

/-- The composition puts `rest x` after the body `first`, where `x` is the result of the latter. -/
structure Host.Composes (host : Host σ F P) (e : Effect) (first : F) (rest : Datum F P → F)
    (c : Composition F P) : Prop where
  start_nested (go : Performer σ F P) : host.start go c.nested = pure c.opening
  /-- First the block of the body is yielded. -/
  resume_opening (go : Performer σ F P) (x : Datum F P) :
    host.resume go c.opening x = do
      let d ← block go e (.start e first)
      return .yielded d c.awaiting
  /-- Its result says how to go on. -/
  resume_awaiting (go : Performer σ F P) (x : Datum F P) :
    host.resume go c.awaiting x = do
      let p ← host.start go (rest x)
      host.resume go p .null
  start_inlined (go : Performer σ F P) :
    host.start go c.inlined = do
      let p ← host.start go first
      return c.inlining p
  /-- In place, the body does what it does, up to its result. -/
  resume_inlining (go : Performer σ F P) (p : P) (x : Datum F P) :
    host.resume go (c.inlining p) x = do
      match ← host.resume go p x with
      | .yielded d q => return .yielded d (c.inlining q)
      | .returned v => do
        let p ← host.start go (rest v)
        host.resume go p .null
  call_binder (go : Performer σ F P) (x : Datum F P) :
    host.call go c.binder [x] = block go e (.start e (rest x))

/-- The block of the body `first` with the binder bound to it. -/
def Composition.bound (go : Performer σ F P) (e : Effect) (first : F) (c : Composition F P) :
    Act σ (Datum F P) := do
  let d ← block go e (.start e first)
  go (.bind d (.host c.binder))

theorem Composition.bound_follows (e : Effect) (first : F) (c : Composition F P) :
    Follows fun go : Performer σ F P => c.bound go e first :=
  (block_follows _ e).bind fun _ => Follows.task _

namespace Host.Composes

variable {first : F} {rest : Datum F P → F} {c : Composition F P}
  (hc : host.Composes e first rest c)

/-- The places of the composed bodies. -/
inductive Places (S : P → Prop) (c : Composition F P) : P → Prop
  | own {p : P} (h : S p) : Places S c p
  | opening : Places S c c.opening
  | awaiting : Places S c c.awaiting
  | inlining {p : P} (h : S p) : Places S c (c.inlining p)

/-! ### Steps of the composed bodies -/

section Steps

variable (hs : host.Steady) (x : Datum F P)

include hc hs

omit hs in
theorem unbounded_start_nested :
    host.unbounded (fun go => host.start go c.nested) = pure c.opening := by
  simp only [hc.start_nested]
  exact unbounded_const _

theorem unbounded_start_inlined :
    host.unbounded (fun go => host.start go c.inlined) =
      host.unbounded (fun go => host.start go first) >>= fun p => pure (c.inlining p) := by
  simp only [hc.start_inlined]
  refine (unbounded_bind hs (start_follows hs first) fun p =>
    Follows.const (pure (c.inlining p))).trans ?_
  simp only [unbounded_const, result_pure]

theorem unbounded_opening :
    host.unbounded (fun go => host.resume go c.opening x) =
      host.unbounded (fun go => block go e (.start e first)) >>= fun d =>
        pure (.yielded d c.awaiting) := by
  simp only [hc.resume_opening]
  refine (unbounded_bind hs (block_follows (.start e first) e) fun d =>
    Follows.const (pure (Progress.yielded d c.awaiting))).trans ?_
  simp only [unbounded_const, result_pure]

theorem unbounded_awaiting :
    host.unbounded (fun go => host.resume go c.awaiting x) = host.enters (rest x) := by
  simp only [hc.resume_awaiting]
  exact unbounded_enter hs (rest x)

theorem unbounded_inlining (p : P) :
    host.unbounded (fun go => host.resume go (c.inlining p) x) =
      host.unbounded (fun go => host.resume go p x) >>= fun
        | .yielded d q => pure (.yielded d (c.inlining q))
        | .returned v => host.enters (rest v) := by
  simp only [hc.resume_inlining]
  have hstep : ∀ progress : Progress F P, Follows fun go : Performer σ F P => match progress with
      | .yielded d q => (pure (.yielded d (c.inlining q)) : Act σ (Progress F P))
      | .returned v => host.start go (rest v) >>= fun p => host.resume go p .null := by
    intro progress
    cases progress with
    | yielded d q => exact Follows.const _
    | returned v => exact (start_follows hs (rest v)).bind fun p => resume_follows hs p .null
  refine (unbounded_bind hs (resume_follows hs p x) hstep).trans ?_
  refine congrArg _ (funext fun progress => ?_)
  cases progress with
  | yielded d q => exact unbounded_const _
  | returned v => exact unbounded_enter hs (rest v)

end Steps

/-! ### Their runs -/

section Runs

variable (hs : host.Steady) (he : e.IsStack) (hS : host.Tidy e S)
  (hfirst : host.Gives (fun go => host.start go first) S)
  (hrest : ∀ x, host.Gives (fun go => host.start go (rest x)) S)

include hc hs he hS hfirst hrest

theorem tidy : host.Tidy e (Places S c) := by
  have hown : ∀ progress : Progress F P, Orderly (e.Shaped host fun _ => True) S progress →
      Orderly (e.Shaped host fun _ => True) (Places S c) progress :=
    fun progress h => h.mono (fun _ hd => hd) fun _ hq => .own hq
  intro p hp x
  refine (gives_iff hs (resume_follows hs p x)).mpr ?_
  cases hp with
  | own h => exact fun w progress w' hp => hown _ (hS.ensures hs h x w progress w' hp)
  | opening =>
    rw [hc.unbounded_opening hs]
    exact (block_shaped hs he hS hfirst).bind fun d hd => Ensures.pure ⟨hd, .awaiting⟩
  | awaiting =>
    rw [hc.unbounded_awaiting hs]
    exact fun w progress w' hp => hown _ (enters_ensures hs hS (hrest x) w progress w' hp)
  | @inlining p h =>
    rw [hc.unbounded_inlining hs]
    refine (hS.ensures hs h x).bind fun progress hprogress => ?_
    cases progress with
    | yielded d q => exact Ensures.pure ⟨hprogress.1, .inlining hprogress.2⟩
    | returned v =>
      exact fun w progress w' hp => hown _ (enters_ensures hs hS (hrest v) w progress w' hp)

/-- In place, a body ends only as it does by itself. The rest of it runs within a smaller bound, and
what comes after its result has no bound here. -/
theorem runsWithin_inlining_le (n : Nat) {p : P} (hp : S p) (κ : Continuation σ F P)
    (x : Datum F P) (inputs : Inputs F P) :
    host.runsWithin n e κ (c.inlining p) x inputs ≤
      host.runs e (fun v inputs => host.opens e κ (rest v) inputs) p x inputs := by
  induction n generalizing p x inputs with
  | zero => exact within_zero_bind_le _ _ _
  | succ n ih =>
    have htidy := hc.tidy hs he hS hfirst hrest
    refine (runsWithin_succ_le hs he htidy (.inlining hp) κ n x inputs).trans ?_
    rw [hc.unbounded_inlining hs, bind_assoc, runs_eq hs he hS hp]
    refine (hS.ensures hs hp x).bind_le_bind (le_refl _) fun progress h => ?_
    cases progress with
    | yielded d q =>
      rw [pure_bind]
      exact proceed_mono hs e d inputs (ih h.2)
    | returned v =>
      refine le_trans ?_ (le_of_eq (opens_eq hs he hS (hrest v) κ inputs).symm)
      exact bind_le_bind (le_refl _) (follow_mono hs κ (runsWithin_le hs n κ) inputs)

/-- By itself, a body ends only as it does in place. -/
theorem runsWithin_le_inlining (n : Nat) {p : P} (hp : S p) (κ : Continuation σ F P)
    (x : Datum F P) (inputs : Inputs F P) :
    host.runsWithin n e (fun v inputs => host.opens e κ (rest v) inputs) p x inputs ≤
      host.runs e κ (c.inlining p) x inputs := by
  induction n generalizing p x inputs with
  | zero => exact within_zero_bind_le _ _ _
  | succ n ih =>
    have htidy := hc.tidy hs he hS hfirst hrest
    refine (runsWithin_succ_le hs he hS hp _ n x inputs).trans ?_
    rw [runs_eq hs he htidy (.inlining hp), hc.unbounded_inlining hs, bind_assoc]
    refine (hS.ensures hs hp x).bind_le_bind (le_refl _) fun progress h => ?_
    cases progress with
    | yielded d q =>
      rw [pure_bind]
      exact proceed_mono hs e d inputs (ih h.2)
    | returned v => exact le_of_eq (opens_eq hs he hS (hrest v) κ inputs)

/-- **In place, a body runs as it does by itself**, with the rest to follow its result. -/
theorem runs_inlining {p : P} (hp : S p) (κ : Continuation σ F P) (x : Datum F P)
    (inputs : Inputs F P) :
    host.runs e κ (c.inlining p) x inputs =
      host.runs e (fun v inputs => host.opens e κ (rest v) inputs) p x inputs :=
  le_antisymm (runs_le hs fun n => hc.runsWithin_inlining_le hs he hS hfirst hrest n hp κ x inputs)
    (runs_le hs fun n => hc.runsWithin_le_inlining hs he hS hfirst hrest n hp κ x inputs)

theorem opens_inlined (κ : Continuation σ F P) (inputs : Inputs F P) :
    host.opens e κ c.inlined inputs =
      host.opens e (fun v inputs => host.opens e κ (rest v) inputs) first inputs := by
  simp only [opens, hc.unbounded_start_inlined hs, bind_assoc, pure_bind]
  exact ((gives_iff hs (start_follows hs first)).mp hfirst).bind_congr fun p hp =>
    hc.runs_inlining hs he hS hfirst hrest hp κ .null inputs

theorem opens_nested (κ : Continuation σ F P) (inputs : Inputs F P) :
    host.opens e κ c.nested inputs =
      host.opens e (fun v inputs => host.opens e κ (rest v) inputs) first inputs := by
  have htidy := hc.tidy hs he hS hfirst hrest
  have hawaiting : host.runs e κ c.awaiting = fun v inputs => host.opens e κ (rest v) inputs := by
    funext v inputs
    rw [runs_eq hs he htidy .awaiting, hc.unbounded_awaiting hs, opens_eq hs he hS (hrest v)]
  rw [opens, hc.unbounded_start_nested, pure_bind, runs_eq hs he htidy .opening,
    hc.unbounded_opening hs, bind_assoc, ← proceed_block hs he hS hfirst]
  simp only [pure_bind, follow, hawaiting]

omit hfirst in
theorem called_binder (κ : Continuation σ F P) :
    host.called e (.host c.binder) κ = fun v inputs => host.opens e κ (rest v) inputs := by
  funext v inputs
  rw [called, ← proceed_block hs he hS (hrest v), does_eq hs]
  simp only [Task.attempt, Fn.callWith, hc.call_binder]

omit hfirst in
theorem binder_continues : host.Continues e (fun _ => True) (.host c.binder) := by
  refine ⟨rfl, fun x => (yields_iff hs).mpr ?_⟩
  rw [does_eq hs]
  simp only [Task.attempt, Fn.callWith, hc.call_binder]
  exact block_shaped hs he hS (hrest x)

omit hc he hS hfirst hrest in
theorem unbounded_bound (c : Composition F P) :
    host.unbounded (fun go => c.bound go e first) =
      host.unbounded (fun go => block go e (.start e first)) >>= fun d =>
        host.does (.bind d (.host c.binder)) :=
  unbounded_bind hs (block_follows _ e) fun _ => Follows.task _

theorem bound_shaped :
    (host.unbounded fun go => c.bound go e first).Ensures (e.Shaped host fun _ => True) := by
  rw [unbounded_bound hs]
  exact (block_shaped hs he hS hfirst).bind fun d hd =>
    bind_shaped hs e hd (hc.binder_continues hs he hS hrest)

theorem proceed_bound (κ : Continuation σ F P) (inputs : Inputs F P) :
    (host.unbounded (fun go => c.bound go e first) >>= fun d => host.proceed e d inputs κ) =
      host.opens e (fun v inputs => host.opens e κ (rest v) inputs) first inputs := by
  have hbind := (block_shaped hs he hS hfirst).bind_congr fun d hd =>
    proceed_bind hs he hd (hc.binder_continues hs he hS hrest) inputs κ
  rw [unbounded_bound hs, bind_assoc, hbind, hc.called_binder hs he hS hrest,
    proceed_block hs he hS hfirst]

/-- Composed bodies whose runs are those of the first body, with the rest to follow, make blocks
that agree with the bound one. -/
theorem agree_bound {body : F}
    (hbody : host.Gives (fun go => host.start go body) (Places S c))
    (hopens : ∀ κ inputs, host.opens e κ body inputs =
      host.opens e (fun v inputs => host.opens e κ (rest v) inputs) first inputs)
    (inputs : Inputs F P) :
    Agree (host.completes e inputs fun go => block go e (.start e body))
      (host.completes e inputs fun go => c.bound go e first) := by
  have htidy := hc.tidy hs he hS hfirst hrest
  refine completes_agree hs (block_follows _ e) (c.bound_follows e first)
    (block_shaped hs he htidy hbody) (hc.bound_shaped hs he hS hfirst hrest) inputs fun κ => ?_
  rw [proceed_block hs he htidy hbody, hc.proceed_bound hs he hS hfirst hrest, hopens]

end Runs

end Host.Composes

/-! ## Three blocks -/

/-- **The three are one computation.** A block that yields the block of a body and goes on with what
`rest` makes of its result, the block with the body in place, and the block of the body with the
blocks of the rest bound to it: built and run completely, with any environments and states, they end
together, with the same final datum or the same error, and in the same world. -/
theorem block_compose {host : Host σ F P} (hs : host.Steady) {e : Effect} (he : e.IsStack)
    {S : P → Prop} (hS : host.Tidy e S) {first : F} {rest : Datum F P → F}
    (hfirst : host.Gives (fun go => host.start go first) S)
    (hrest : ∀ x, host.Gives (fun go => host.start go (rest x)) S) {c : Composition F P}
    (hc : host.Composes e first rest c) (inputs : Inputs F P) :
    Agree (host.completes e inputs fun go => block go e (.start e c.nested))
      (host.completes e inputs fun go => c.bound go e first) ∧
    Agree (host.completes e inputs fun go => block go e (.start e c.inlined))
      (host.completes e inputs fun go => c.bound go e first) := by
  constructor
  · refine hc.agree_bound hs he hS hfirst hrest ?_ (hc.opens_nested hs he hS hfirst hrest) inputs
    rw [Host.gives_iff hs (Host.start_follows hs _), hc.unbounded_start_nested]
    exact Ensures.pure .opening
  · refine hc.agree_bound hs he hS hfirst hrest ?_ (hc.opens_inlined hs he hS hfirst hrest) inputs
    rw [Host.gives_iff hs (Host.start_follows hs _), hc.unbounded_start_inlined hs]
    exact ((Host.gives_iff hs (Host.start_follows hs first)).mp hfirst).bind fun p hp =>
      Ensures.pure (.inlining hp)

/-! ## A sample host -/

mutual

/-- Bodies: one that counts down, one that reports a result with the state, and the compositions of
the two. -/
inductive Errand
  | countdown
  | report (x : Datum Errand Stage)
  | nested
  | inlined
  | binder

inductive Stage
  | look
  | seen
  | report (x : Datum Errand Stage)
  | reported (x : Datum Errand Stage)
  | opening
  | awaiting
  | inlining (p : Stage)

end

/-- State over absence. -/
abbrev errandEffect : Effect := .transformer .state (.onto .bare .maybe)

abbrev errand (m : StateTProg Errand Stage) : Datum Errand Stage :=
  .comp (.stateT (.onto .bare .maybe) m)

/-- The stages of the two bodies. -/
def Stage.Own : Stage → Prop
  | .look | .seen | .report _ | .reported _ => True
  | .opening | .awaiting | .inlining _ => False

/-- The first step of a report. -/
def reporting (x : Datum Errand Stage) : Progress Errand Stage :=
  .yielded (errand .get) (.reported x)

/-- The countdown lowers the state and looks again, as long as it is positive. -/
def counting : Datum Errand Stage → Progress Errand Stage
  | .int (.ofNat (n + 1)) => .yielded (errand (.put (.int n))) .look
  | _ => .returned (.text "done")

def Stage.resume (go : Performer Unit Errand Stage) :
    Stage → Datum Errand Stage → Act Unit (Progress Errand Stage)
  | .look, _ => return .yielded (errand .get) .seen
  | .seen, s => return counting s
  | .report x, _ => return reporting x
  | .reported x, s => return .returned (.tuple [x, s])
  | .opening, _ => do
    let d ← block go errandEffect (.start errandEffect .countdown)
    return .yielded d .awaiting
  | .awaiting, x => return reporting x
  | .inlining p, x => do
    match ← p.resume go x with
    | .yielded d q => return .yielded d (.inlining q)
    | .returned v => return reporting v

def errands : Host Unit Errand Stage where
  call go f args :=
    match f, args with
    | .binder, [x] => block go errandEffect (.start errandEffect (.report x))
    | _, _ => Run.fault (.raised "no function")
  start _ body :=
    match body with
    | .countdown => return .look
    | .report x => return .report x
    | .nested => return .opening
    | .inlined => return .inlining .look
    | .binder => Run.fault (.raised "no body")
  resume go p x := p.resume go x

theorem Stage.resume_follows (p : Stage) (x : Datum Errand Stage) :
    Follows fun go : Performer Unit Errand Stage => p.resume go x := by
  match p with
  | .look | .seen | .report _ | .reported _ | .awaiting => exact Follows.const _
  | .opening => exact (block_follows _ _).bind fun _ => Follows.const _
  | .inlining p =>
    refine (resume_follows p x).bind fun progress => ?_
    split <;> exact Follows.const _

theorem errands_steady : errands.Steady where
  call h f args := by
    dsimp only [errands]
    split
    · exact block_follows _ _ h
    · exact Below.refl _
  start _ _ := Below.refl _
  resume h p x := p.resume_follows x h

theorem errands_tidy : errands.Tidy errandEffect Stage.Own := by
  have hget : errandEffect.Shaped errands (fun _ => True) (errand .get) :=
    Host.shaped_stateT errands_steady fun n s => Keeps.pure (.inr ⟨_, rfl, s, s, rfl, trivial⟩)
  have hput : ∀ v, errandEffect.Shaped errands (fun _ => True) (errand (.put v)) := fun v =>
    Host.shaped_stateT errands_steady fun n s => Keeps.pure (.inr ⟨_, rfl, v, .null, rfl, trivial⟩)
  rintro p hp x w progress w' ⟨-, n, h⟩
  match p with
  | .look =>
    obtain ⟨⟩ := h
    exact ⟨hget, trivial⟩
  | .seen =>
    obtain ⟨⟩ := h
    unfold counting
    split
    · exact ⟨hput _, trivial⟩
    · trivial
  | .report _ =>
    obtain ⟨⟩ := h
    exact ⟨hget, trivial⟩
  | .reported _ =>
    obtain ⟨⟩ := h
    trivial

def errandComposition : Composition Errand Stage where
  nested := .nested
  opening := .opening
  awaiting := .awaiting
  inlined := .inlined
  inlining := .inlining
  binder := .binder

theorem errands_compose :
    errands.Composes errandEffect .countdown .report errandComposition where
  start_nested _ := rfl
  resume_opening _ _ := rfl
  resume_awaiting _ _ := rfl
  start_inlined _ := rfl
  resume_inlining go p x := by
    refine congrArg (p.resume go x >>= ·) (funext fun progress => ?_)
    cases progress <;> rfl
  call_binder _ _ := rfl

/-- The countdown brings the state to zero before the report. -/
theorem block_compose_countdown :
    let inputs : Inputs Errand Stage := (Stream'.const .null).cons (.int 2)
    let ended : Datum Errand Stage :=
      .comp (.some (.tuple [.int 0, .tuple [.text "done", .int 0]]))
    errands.Steady ∧ errandEffect.IsStack ∧ errands.Tidy errandEffect Stage.Own ∧
    errands.Composes errandEffect .countdown .report errandComposition ∧
    Settles (errands.completes errandEffect inputs fun go =>
      block go errandEffect (.start errandEffect .nested)) () (.done ended) () ∧
    Settles (errands.completes errandEffect inputs fun go =>
      block go errandEffect (.start errandEffect .inlined)) () (.done ended) () := by
  intro inputs ended
  have he : errandEffect.IsStack := .layered _ _ .maybe
  have hfirst : errands.Gives (fun go => errands.start go .countdown) Stage.Own := by
    rintro w p w' ⟨-, n, h⟩
    obtain ⟨⟩ := h
    trivial
  have hrest : ∀ x, errands.Gives (fun go => errands.start go (.report x)) Stage.Own := by
    rintro x w p w' ⟨-, n, h⟩
    obtain ⟨⟩ := h
    trivial
  obtain ⟨hnested, hinlined⟩ := block_compose errands_steady he errands_tidy hfirst hrest
    errands_compose inputs
  have hbound : Settles (errands.completes errandEffect inputs fun go =>
      errandComposition.bound go errandEffect .countdown) () (.done ended) () :=
    ⟨by simp, 40, rfl⟩
  exact ⟨errands_steady, he, errands_tidy, errands_compose, (hnested _ _ _).mpr hbound,
    (hinlined _ _ _).mpr hbound⟩

end EffectCalculus
