import EffectCalculus.Proofs.Effect.Deferred

/-!
# Programs on a cell

Programs that look at an environment, or at a state that they may also write, can be told in several
effects: in a plain one, or in a transformer over some base. A plan is such a program before it is
told in any of them. It has a direct meaning, and every way to tell it comes to this meaning.

* `Cell`, `Plan`: what programs work on, and programs as such;
* `Callbacks`: what the callbacks of a plan do, which may be anything, also to raise an error;
* `Plan.direct`: the direct meaning of a plan, from the cell as it stands to the cell as it is left
  and the result, if there is one;
* `Dialect`: a way to tell plans by the operations of an effect; `Plan.build`, `Callbacks.host`,
  `Plan.runIn`: a plan and the callbacks told in this way, and run;
* `Callbacks.binder_continues`: binders give computations of the right shape, by induction on the
  bound;
* `Callbacks.exists_renders`: **a plan that is told goes on as its direct meaning does**, within
  each bound, by one case for each kind of plan;
* `Plan.unbounded_runIn`: so a complete run comes to the direct meaning; `Plan.settles_done_iff`,
  `Plan.settles_fault_iff`: how it ends.
-/

namespace EffectCalculus

open Run Unbounded

/-! ## Plans -/

/-- What a program works on. -/
inductive Cell
  /-- What a reader gets, which is never written. -/
  | environment
  | state
  /-- The state of a program that may fail. -/
  | fallible
deriving DecidableEq, Repr

namespace Cell

/-- A part of a program may be run with another cell. -/
def shadows : Cell → Bool
  | .environment => true
  | .state | .fallible => false

def writes : Cell → Bool
  | .environment => false
  | .state | .fallible => true

def fails : Cell → Bool
  | .environment | .state => false
  | .fallible => true

end Cell

/-- What plans compute with, where `Φ` are the names of functions and `K` those of binders. -/
abbrev Item (Φ K P : Type) := Datum (Φ ⊕ K) P

inductive Plan (Φ K P : Type) (c : Cell)
  | unit (v : Item Φ K P)
  /-- The cell as it stands. -/
  | look
  | put (h : c.writes = true) (v : Item Φ K P)
  | fail (h : c.fails = true)
  /-- `m` in the environment that `f` makes of the present one. -/
  | within (h : c.shadows = true) (f : Φ) (m : Plan Φ K P c)
  | map (m : Plan Φ K P c) (f : Φ)
  | bind (m : Plan Φ K P c) (k : K)
  | andThen (m next : Plan Φ K P c)

/-- What the callbacks of plans do. A binder makes the plan to go on with. -/
structure Callbacks (σ Φ K P : Type) (c : Cell) where
  function : Φ → Item Φ K P → Act σ (Item Φ K P)
  binder : K → Item Φ K P → Act σ (Plan Φ K P c)

variable {σ Φ K P : Type} {c : Cell}

/-! ## The direct meaning -/

namespace Plan

/-- The cell that is left, and the result, if there is one. -/
abbrev End (Φ K P : Type) := Item Φ K P × Option (Item Φ K P)

/-- Goes on after a result. A failure stays where it is. -/
def onward (next : Item Φ K P → Item Φ K P → Act σ (End Φ K P)) : End Φ K P → Act σ (End Φ K P)
  | (s, some v) => next v s
  | (s, none) => return (s, none)

/-- The direct meaning of a plan; `again` is the meaning of those that binders make. -/
def directWith (cb : Callbacks σ Φ K P c)
    (again : Plan Φ K P c → Item Φ K P → Act σ (End Φ K P)) :
    Plan Φ K P c → Item Φ K P → Act σ (End Φ K P)
  | .unit v, s => return (s, some v)
  | .look, s => return (s, some s)
  | .put _ v, _ => return (v, some .null)
  | .fail _, s => return (s, none)
  | .within _ f m, s => do
    let inner ← cb.function f s
    m.directWith cb again inner >>= onward fun v _ => return (s, some v)
  | .map m f, s => m.directWith cb again s >>= onward fun v s => do
    let v ← cb.function f v
    return (s, some v)
  | .bind m k, s => m.directWith cb again s >>= onward fun v s => do
    let next ← cb.binder k v
    again next s
  | .andThen m next, s => m.directWith cb again s >>= onward fun _ s => next.directWith cb again s

/-- The direct meaning of a plan. The bound is on how deep binders make further plans. -/
def direct (cb : Callbacks σ Φ K P c) : Nat → Plan Φ K P c → Item Φ K P → Act σ (End Φ K P)
  | 0, _, _ => Run.unfinished
  | n + 1, m, s => m.directWith cb (direct cb n) s

theorem onward_below {next next' : Item Φ K P → Item Φ K P → Act σ (End Φ K P)}
    (h : ∀ v s, Below (next v s) (next' v s)) (p : End Φ K P) :
    Below (onward next p) (onward next' p) := by
  obtain ⟨s, _ | v⟩ := p
  · exact Below.refl _
  · exact h v s

theorem directWith_below {cb : Callbacks σ Φ K P c}
    {again again' : Plan Φ K P c → Item Φ K P → Act σ (End Φ K P)}
    (h : ∀ m s, Below (again m s) (again' m s)) (m : Plan Φ K P c) (s : Item Φ K P) :
    Below (m.directWith cb again s) (m.directWith cb again' s) := by
  induction m generalizing s with
  | unit | look | put | fail => exact Below.refl _
  | within _ f m ih =>
    exact (Below.refl _).bind fun s => (ih s).bind (onward_below fun _ _ => Below.refl _)
  | map m f ih => exact (ih s).bind (onward_below fun _ _ => Below.refl _)
  | bind m k ih =>
    exact (ih s).bind (onward_below fun v s => (Below.refl _).bind fun next => h next s)
  | andThen m next ih ihnext => exact (ih s).bind (onward_below fun _ s => ihnext s)

theorem rising_direct (cb : Callbacks σ Φ K P c) (m : Plan Φ K P c) (s : Item Φ K P) :
    Rising fun n => m.direct cb n s := by
  have hsucc : ∀ n (m : Plan Φ K P c) s, Below (m.direct cb n s) (m.direct cb (n + 1) s) := by
    intro n
    induction n with
    | zero => exact fun m s => unfinished_below _
    | succ n ih => exact fun m s => directWith_below ih m s
  exact fun _ _ h => below_of_succ (fun n => hsucc n m s) h

end Plan

/-- What the direct meaning of a plan comes to. -/
noncomputable def Callbacks.acts (cb : Callbacks σ Φ K P c) (m : Plan Φ K P c) (s : Item Φ K P) :
    Unbounded EffectError σ (Plan.End Φ K P) :=
  Run.unbounded fun n => m.direct cb n s

/-! ## Telling plans -/

/-- In every host, the recipe comes at once to a computation of the effect, which goes on as `μ`
says. -/
structure Recipe.Means {F : Type} (e : Effect) (r : Recipe σ F P)
    (μ : Inputs F P → Continuation σ F P → Unbounded EffectError σ (Datum F P)) : Prop where
  follows : Follows r
  built [Nonempty σ] {host : Host σ F P} (hs : host.Steady) : ∃ d, host.unbounded r = pure d ∧
    e.Shaped host (fun _ => True) d ∧ ∀ inputs κ, host.proceed e d inputs κ = μ inputs κ

namespace Recipe.Means

variable {F : Type} {e : Effect} {r : Recipe σ F P}
  {μ : Inputs F P → Continuation σ F P → Unbounded EffectError σ (Datum F P)}

theorem keeps (hr : r.Means e μ) {host : Host σ F P} (hs : host.Steady) (j n : Nat) :
    (r (perform host j)).Keeps (fun _ => True)
      (e.ShapedAt host (fun _ => True) n fun _ => True) := by
  intro w w'
  refine ⟨fun _ _ => trivial, fun a ha => ?_⟩
  have : Nonempty σ := ⟨w⟩
  obtain ⟨d, hd, hshaped, -⟩ := hr.built hs
  have hlimit : host.unbounded r w = some (.ok a, w') :=
    result_le_unbounded (hs.rising hr.follows) j w _ (result_apply_ok.mpr ha)
  rw [hd] at hlimit
  cases hlimit
  exact (Effect.shaped_iff hs e).mp hshaped n

/-- A recipe that just gives a computation. -/
theorem of_pure {d : Datum F P} (hshaped : ∀ [Nonempty σ] {host : Host σ F P}, host.Steady →
      e.Shaped host (fun _ => True) d)
    (hproceed : ∀ {host : Host σ F P}, host.Steady → ∀ inputs κ,
      host.proceed e d inputs κ = μ inputs κ) :
    Recipe.Means e (fun _ => pure d) μ where
  follows := Follows.const _
  built hs := ⟨d, Host.unbounded_const _, hshaped hs, hproceed hs⟩

end Recipe.Means

theorem exists_unitOf_eq {F : Type} {e : Effect} (he : e.IsStack) (v : Datum F P) :
    ∃ d, (unitOf e v : Act σ (Datum F P)) = pure d := by
  induction he generalizing v with
  | maybe | reader | state | identity => exact ⟨_, rfl⟩
  | layered layer inner _ ih =>
    cases layer with
    | reader | state => exact ⟨_, rfl⟩
    | maybe =>
      obtain ⟨d, hd⟩ := ih (.comp (.some v))
      exact ⟨_, by rw [unitOf_maybeT, hd, pure_bind]⟩

theorem unitOf_means {F : Type} {e : Effect} (he : e.IsStack) (v : Datum F P) :
    Recipe.Means (σ := σ) e (fun _ => unitOf e v) fun inputs κ => κ v inputs where
  follows := Follows.const _
  built {_ host} hs := by
    obtain ⟨d, hd⟩ := exists_unitOf_eq (σ := σ) he v
    have hshaped := Host.unit_shaped hs e (Q := fun _ => True) (v := v) trivial
    have hproceed := Host.proceed_unit hs he v
    rw [hd, result_pure] at hshaped
    simp only [hd, result_pure, pure_bind] at hproceed
    refine ⟨d, ?_, hshaped.of_pure, hproceed⟩
    rw [hd]
    exact Host.unbounded_const _

/-- The operations of an effect that plans are told by. The cell is the outermost input. -/
structure Dialect (σ Φ K P : Type) (c : Cell) where
  effect : Effect
  stack : effect.IsStack
  defers : effect.defers = true
  reads : c.shadows = true → effect.reads = true
  /-- What is left of a complete run after a failure. -/
  lost : Inputs (Φ ⊕ K) P → Item Φ K P
  look : Recipe σ (Φ ⊕ K) P
  put : c.writes = true → Item Φ K P → Recipe σ (Φ ⊕ K) P
  fail : c.fails = true → Recipe σ (Φ ⊕ K) P
  look_means : look.Means effect fun inputs κ => κ inputs.head (inputs.tail.cons inputs.head)
  put_means (h : c.writes = true) (v : Item Φ K P) :
    (put h v).Means effect fun inputs κ => κ .null (inputs.tail.cons v)
  fail_means (h : c.fails = true) : (fail h).Means effect fun inputs _ => pure (lost inputs)

/-- A plan as a computation of the effect. -/
def Plan.build (D : Dialect σ Φ K P c) : Plan Φ K P c → Recipe σ (Φ ⊕ K) P
  | .unit v, _ => unitOf D.effect v
  | .look, go => D.look go
  | .put h v, go => D.put h v go
  | .fail h, go => D.fail h go
  | .within _ f m, go => do
    let c ← (← m.build D go).asComp "local"
    offer (c.within (.host (.inl f)))
  | .map m f, go => do
    let d ← m.build D go
    go (.map d (.host (.inl f)))
  | .bind m k, go => do
    let d ← m.build D go
    go (.bind d (.host (.inr k)))
  | .andThen m next, go => do
    let d ← m.build D go
    let d' ← next.build D go
    go (.bind d (.const d'))

/-- The callbacks as those of a host. Its binders build the plans that they make. -/
def Callbacks.host (cb : Callbacks σ Φ K P c) (D : Dialect σ Φ K P c) : Host σ (Φ ⊕ K) P where
  call go f args :=
    match f, args with
    | .inl f, [v] => cb.function f v
    | .inr k, [v] => cb.binder k v >>= fun m => m.build D go
    | _, _ => Run.fault (.unsupported "call" "function")
  start _ _ := Run.fault (.unsupported "start" "function")
  resume _ _ _ := Run.fault (.unsupported "resume" "function")

theorem Plan.build_follows (D : Dialect σ Φ K P c) (m : Plan Φ K P c) : Follows (m.build D) := by
  induction m with
  | unit v => exact Follows.const _
  | look => exact D.look_means.follows
  | put h v => exact (D.put_means h v).follows
  | fail h => exact (D.fail_means h).follows
  | within _ f m ih => exact ih.bind fun d => Follows.const _
  | map m f ih => exact ih.bind fun d => Follows.task _
  | bind m k ih => exact ih.bind fun d => Follows.task _
  | andThen m next ih ihnext => exact ih.bind fun d => ihnext.bind fun d' => Follows.task _

namespace Callbacks

variable (cb : Callbacks σ Φ K P c) (D : Dialect σ Φ K P c)

theorem host_steady : (cb.host D).Steady where
  call h f args := by
    dsimp only [host]
    split
    · exact Below.refl _
    · exact (Below.refl _).bind fun m => m.build_follows D h
    · exact Below.refl _
  start _ _ := Below.refl _
  resume _ _ _ := Below.refl _

theorem does_function (f : Φ) (v : Item Φ K P) :
    (cb.host D).does (.call (.host (.inl f)) [v]) = (cb.function f v).result := by
  rw [Host.does_eq (cb.host_steady D)]
  exact Host.unbounded_const _

theorem does_binder (k : K) (v : Item Φ K P) :
    (cb.host D).does (.call (.host (.inr k)) [v]) =
      (cb.binder k v).result >>= fun m => (cb.host D).unbounded (m.build D) := by
  rw [Host.does_eq (cb.host_steady D)]
  refine (Host.unbounded_bind (cb.host_steady D) (Follows.const _) fun m =>
    m.build_follows D).trans ?_
  rw [Host.unbounded_const]

/-! ## Shapes -/

section Shapes

variable {cb D} {n j : Nat}

theorem build_keeps
    (hbinder : ∀ k v, (perform (cb.host D) n (.call (.host (.inr k)) [v])).Keeps (fun _ => True)
      (D.effect.ShapedAt (cb.host D) (fun _ => True) n fun _ => True))
    (m : Plan Φ K P c) (hj : j ≤ n + 1) :
    (m.build D (perform (cb.host D) j)).Keeps (fun _ => True)
      (D.effect.ShapedAt (cb.host D) (fun _ => True) (n + 1) fun _ => True) := by
  have hs := cb.host_steady D
  have hbelow := fun t => perform_below hs hj t
  induction m with
  | unit v => exact (unitOf_means D.stack v).keeps hs j (n + 1)
  | look => exact D.look_means.keeps hs j (n + 1)
  | put h v => exact (D.put_means h v).keeps hs j (n + 1)
  | fail h => exact (D.fail_means h).keeps hs j (n + 1)
  | within h f m ih =>
    exact ih.bind fun d hd => Host.within_keeps (D.reads h) hd fun env => Keeps.any _
  | map m f ih =>
    refine ih.bind fun d hd => Keeps.of_below ?_ (hbelow _)
    exact Host.map_keeps hs D.stack hd rfl fun v _ => Keeps.any _
  | bind m k ih =>
    refine ih.bind fun d hd => Keeps.of_below ?_ (hbelow _)
    exact Host.bind_keeps hs D.stack hd rfl fun v _ => hbinder k v
  | andThen m next ih ihnext =>
    refine ih.bind fun d hd => ihnext.bind fun d' hd' => Keeps.of_below ?_ (hbelow _)
    refine Host.bind_keeps hs D.stack hd rfl fun v _ => Host.perform_keeps fun i _ => ?_
    exact Keeps.pure (hd'.weaken hs n.le_succ D.effect fun _ => id)

theorem binder_keeps (n : Nat) (k : K) (v : Item Φ K P) :
    (perform (cb.host D) n (.call (.host (.inr k)) [v])).Keeps (fun _ => True)
      (D.effect.ShapedAt (cb.host D) (fun _ => True) n fun _ => True) := by
  induction n generalizing k v with
  | zero => exact Keeps.unfinished
  | succ n ih => exact (Keeps.any (cb.binder k v)).bind fun m _ => build_keeps ih m n.le_succ

/-- Binders give computations of the right shape. -/
theorem binder_continues (k : K) :
    (cb.host D).Continues D.effect (fun _ => True) (.host (.inr k)) :=
  ⟨rfl, fun v => (Host.yields_shaped_iff (cb.host_steady D)).mpr fun n => binder_keeps n k v⟩

end Shapes

end Callbacks

/-! ## Going on -/

/-- What follows when a plan has ended: the cell is the outermost input. -/
def Dialect.resume (D : Dialect σ Φ K P c) (κ : Continuation σ (Φ ⊕ K) P)
    (rest : Inputs (Φ ⊕ K) P) : Plan.End Φ K P → Unbounded EffectError σ (Item Φ K P)
  | (s, some v) => κ v (rest.cons s)
  | (s, none) => pure (D.lost (rest.cons s))

theorem Dialect.resume_onward (D : Dialect σ Φ K P c)
    (next : Item Φ K P → Item Φ K P → Act σ (Plan.End Φ K P)) (κ : Continuation σ (Φ ⊕ K) P)
    (rest : Inputs (Φ ⊕ K) P) (p : Plan.End Φ K P) :
    ((Plan.onward next p).result >>= D.resume κ rest) =
      D.resume (fun v inputs => (next v inputs.head).result >>= D.resume κ inputs.tail) rest p := by
  obtain ⟨s, _ | v⟩ := p
  · exact pure_bind _ _
  · rfl

theorem Dialect.resume_le (D : Dialect σ Φ K P c) {κ κ' : Continuation σ (Φ ⊕ K) P}
    (h : ∀ v inputs, κ v inputs ≤ κ' v inputs) (rest : Inputs (Φ ⊕ K) P) (p : Plan.End Φ K P) :
    D.resume κ rest p ≤ D.resume κ' rest p := by
  obtain ⟨s, _ | v⟩ := p
  · exact le_refl _
  · exact h v (rest.cons s)

namespace Callbacks

variable (cb : Callbacks σ Φ K P c) (D : Dialect σ Φ K P c)

/-- What the direct meaning of a plan within the bound `n` goes on with. -/
def follow (n : Nat) (m : Plan Φ K P c) (κ : Continuation σ (Φ ⊕ K) P)
    (inputs : Inputs (Φ ⊕ K) P) : Unbounded EffectError σ (Item Φ K P) :=
  (m.direct cb n inputs.head).result >>= D.resume κ inputs.tail

/-- The same for the plan that a binder makes. -/
def followBinder (n : Nat) (k : K) (κ : Continuation σ (Φ ⊕ K) P) :
    Continuation σ (Φ ⊕ K) P := fun v inputs =>
  (cb.binder k v).result >>= fun m => cb.follow D n m κ inputs

/-- The same for the result of a function. -/
def followFunction (f : Φ) (κ : Continuation σ (Φ ⊕ K) P) : Continuation σ (Φ ⊕ K) P :=
  fun v inputs => (cb.function f v).result >>= fun v => κ v inputs

section Follow

variable (n : Nat) (m : Plan Φ K P c) (κ : Continuation σ (Φ ⊕ K) P) (inputs : Inputs (Φ ⊕ K) P)

theorem follow_onward {m' : Plan Φ K P c}
    {next : Item Φ K P → Item Φ K P → Act σ (Plan.End Φ K P)}
    (h : m'.direct cb n inputs.head = m.direct cb n inputs.head >>= Plan.onward next) :
    cb.follow D n m' κ inputs = cb.follow D n m (fun v inputs =>
      (next v inputs.head).result >>= D.resume κ inputs.tail) inputs := by
  simp only [follow, h, result_bind, bind_assoc, Dialect.resume_onward]

theorem follow_map (f : Φ) :
    cb.follow D (n + 1) (.map m f) κ inputs =
      cb.follow D (n + 1) m (cb.followFunction f κ) inputs := by
  refine (cb.follow_onward D (n + 1) m κ inputs rfl).trans ?_
  refine congrArg (cb.follow D (n + 1) m · inputs) (funext fun v => funext fun inputs => ?_)
  rw [result_bind, bind_assoc]
  exact congrArg _ (funext fun v => congrArg (κ v) (Stream'.eta inputs))

theorem follow_bind (k : K) :
    cb.follow D (n + 1) (.bind m k) κ inputs =
      cb.follow D (n + 1) m (cb.followBinder D n k κ) inputs := by
  refine (cb.follow_onward D (n + 1) m κ inputs rfl).trans ?_
  refine congrArg (cb.follow D (n + 1) m · inputs) (funext fun v => funext fun inputs => ?_)
  rw [result_bind, bind_assoc]
  rfl

theorem follow_andThen (next : Plan Φ K P c) :
    cb.follow D (n + 1) (.andThen m next) κ inputs =
      cb.follow D (n + 1) m (fun _ inputs => cb.follow D (n + 1) next κ inputs) inputs :=
  cb.follow_onward D (n + 1) m κ inputs rfl

theorem follow_within (h : c.shadows = true) (f : Φ) :
    cb.follow D (n + 1) (.within h f m) κ inputs =
      (cb.function f inputs.head).result >>= fun s =>
        cb.follow D (n + 1) m (κ.restoring inputs.head) (inputs.tail.cons s) := by
  simp only [follow, Plan.direct, Plan.directWith, result_bind, bind_assoc, Dialect.resume_onward]
  rfl

end Follow

/-! ## Plans and what is built of them -/

/-- Within the bound `n`, binders go on as the plans that they make do, and these as the binders do
without a bound. -/
def Between (n : Nat) : Prop :=
  ∀ k κ v inputs,
    calledBy ((cb.host D).within n) D.effect (.host (.inr k)) κ v inputs ≤
        cb.followBinder D n k κ v inputs ∧
      cb.followBinder D n k κ v inputs ≤
        (cb.host D).called D.effect (.host (.inr k)) κ v inputs

/-- The plan is built as the computation `d`, which goes on as the plan does. -/
structure Renders (m : Plan Φ K P c) (d : Item Φ K P) : Prop where
  built : (cb.host D).unbounded (m.build D) = pure d
  shaped : D.effect.Shaped (cb.host D) (fun _ => True) d
  within_le {n : Nat} (h : cb.Between D n) (inputs : Inputs (Φ ⊕ K) P)
    (κ : Continuation σ (Φ ⊕ K) P) :
    proceedBy ((cb.host D).within (n + 1)) D.effect d inputs κ ≤ cb.follow D (n + 1) m κ inputs
  le_proceed {n : Nat} (h : cb.Between D n) (inputs : Inputs (Φ ⊕ K) P)
    (κ : Continuation σ (Φ ⊕ K) P) :
    cb.follow D (n + 1) m κ inputs ≤ (cb.host D).proceed D.effect d inputs κ

section Renders

variable {cb D} {m m' : Plan Φ K P c} {d d' : Item Φ K P}

theorem follow_le (n : Nat) (m : Plan Φ K P c) {κ κ' : Continuation σ (Φ ⊕ K) P}
    (h : ∀ v inputs, κ v inputs ≤ κ' v inputs) (inputs : Inputs (Φ ⊕ K) P) :
    cb.follow D n m κ inputs ≤ cb.follow D n m κ' inputs :=
  bind_le_bind (le_refl _) fun p => D.resume_le h inputs.tail p

/-- The operations of the dialect. -/
theorem exists_renders_of_means [Nonempty σ]
    {μ : Inputs (Φ ⊕ K) P → Continuation σ (Φ ⊕ K) P → Unbounded EffectError σ (Item Φ K P)}
    (h : (m.build D).Means D.effect μ)
    (hfollow : ∀ n inputs κ, cb.follow D (n + 1) m κ inputs = μ inputs κ) :
    ∃ d, cb.Renders D m d := by
  have hs := cb.host_steady D
  obtain ⟨d, hbuilt, hshaped, hproceed⟩ := h.built hs
  refine ⟨d, hbuilt, hshaped, fun {n} _ inputs κ => ?_, fun {n} _ inputs κ => ?_⟩
  · rw [hfollow, ← hproceed]
    exact Host.proceedBy_within_le hs (n + 1) D.effect d inputs κ
  · rw [hfollow, hproceed]

/-- A plan that goes on with something else first: without a bound as `hi` says, within a bound as
`lo` says, and directly as `mid` says. -/
theorem Renders.extend (hm : cb.Renders D m d)
    (hbuilt : (cb.host D).unbounded (m'.build D) = pure d')
    (hshaped : D.effect.Shaped (cb.host D) (fun _ => True) d')
    {lo mid : Nat → Continuation σ (Φ ⊕ K) P → Continuation σ (Φ ⊕ K) P}
    {hi : Continuation σ (Φ ⊕ K) P → Continuation σ (Φ ⊕ K) P}
    (hfollow : ∀ n inputs κ,
      cb.follow D (n + 1) m' κ inputs = cb.follow D (n + 1) m (mid n κ) inputs)
    (hproceed : ∀ inputs κ, (cb.host D).proceed D.effect d' inputs κ =
      (cb.host D).proceed D.effect d inputs (hi κ))
    (hwithin : ∀ n inputs κ, proceedBy ((cb.host D).within (n + 1)) D.effect d' inputs κ ≤
      proceedBy ((cb.host D).within (n + 1)) D.effect d inputs (lo n κ))
    (hlo : ∀ n, cb.Between D n → ∀ κ v inputs, lo n κ v inputs ≤ mid n κ v inputs)
    (hhi : ∀ n, cb.Between D n → ∀ κ v inputs, mid n κ v inputs ≤ hi κ v inputs) :
    cb.Renders D m' d' where
  built := hbuilt
  shaped := hshaped
  within_le {n} h inputs κ := by
    rw [hfollow]
    calc proceedBy ((cb.host D).within (n + 1)) D.effect d' inputs κ
        ≤ proceedBy ((cb.host D).within (n + 1)) D.effect d inputs (lo n κ) := hwithin n inputs κ
      _ ≤ cb.follow D (n + 1) m (lo n κ) inputs := hm.within_le h inputs (lo n κ)
      _ ≤ cb.follow D (n + 1) m (mid n κ) inputs := follow_le (n + 1) m (hlo n h κ) inputs
  le_proceed {n} h inputs κ := by
    rw [hfollow, hproceed]
    calc cb.follow D (n + 1) m (mid n κ) inputs
        ≤ cb.follow D (n + 1) m (hi κ) inputs := follow_le (n + 1) m (hhi n h κ) inputs
      _ ≤ (cb.host D).proceed D.effect d inputs (hi κ) := hm.le_proceed h inputs (hi κ)

theorem Renders.map [Nonempty σ] (hm : cb.Renders D m d) (f : Φ) :
    ∃ d', cb.Renders D (.map m f) d' := by
  have hs := cb.host_steady D
  obtain ⟨d', hbuilt, hshaped, hproceed, hwithin⟩ :=
    Host.exists_map_eq hs D.stack D.defers hm.shaped (f := .host (.inl f)) (R := fun _ => True) rfl
      fun _ _ _ _ _ _ => trivial
  have happlied : (cb.host D).applied (.host (.inl f)) = cb.followFunction f := by
    funext κ v inputs
    rw [Host.applied, does_function]
    rfl
  rw [happlied] at hproceed hwithin
  refine ⟨d', hm.extend ?_ hshaped (fun n inputs κ => cb.follow_map D n m κ inputs f) hproceed
    hwithin (fun _ _ _ _ _ => le_refl _) fun _ _ _ _ _ => le_refl _⟩
  refine (Host.unbounded_bind hs (m.build_follows D) fun d => Follows.task _).trans ?_
  rw [hm.built, pure_bind]
  exact hbuilt

theorem Renders.bind [Nonempty σ] (hm : cb.Renders D m d) (k : K) :
    ∃ d', cb.Renders D (.bind m k) d' := by
  have hs := cb.host_steady D
  obtain ⟨d', hbuilt, hshaped, hproceed, hwithin⟩ :=
    Host.exists_bind_eq hs D.stack D.defers hm.shaped (binder_continues k)
  refine ⟨d', hm.extend ?_ hshaped (fun n inputs κ => cb.follow_bind D n m κ inputs k) hproceed
    hwithin (fun n h κ v inputs => (h k κ v inputs).1) fun n h κ v inputs => (h k κ v inputs).2⟩
  refine (Host.unbounded_bind hs (m.build_follows D) fun d => Follows.task _).trans ?_
  rw [hm.built, pure_bind]
  exact hbuilt

theorem Renders.andThen [Nonempty σ] (hm : cb.Renders D m d) (hm' : cb.Renders D m' d') :
    ∃ d'', cb.Renders D (.andThen m m') d'' := by
  have hs := cb.host_steady D
  have hconst : (cb.host D).Continues D.effect (fun _ => True) (.const d') := by
    refine ⟨rfl, fun v => (Host.yields_iff hs).mpr ?_⟩
    rw [Host.does_const hs]
    exact Ensures.pure hm'.shaped
  obtain ⟨d'', hbuilt, hshaped, hproceed, hwithin⟩ :=
    Host.exists_bind_eq hs D.stack D.defers hm.shaped hconst
  refine ⟨d'', hm.extend ?_ hshaped (fun n inputs κ => cb.follow_andThen D n m κ inputs m')
    hproceed hwithin (fun n h κ v inputs => ?_) fun n h κ v inputs => ?_⟩
  · refine (Host.unbounded_bind hs (m.build_follows D) fun d =>
      (m'.build_follows D).bind fun d' => Follows.task _).trans ?_
    rw [hm.built, pure_bind, Host.unbounded_bind hs (m'.build_follows D) fun d' => Follows.task _,
      hm'.built, pure_bind]
    exact hbuilt
  · have hcall := Host.within_le_does hs n (.call (.const d') [v])
    rw [Host.does_const hs] at hcall
    refine le_trans ?_ (hm'.within_le h inputs κ)
    refine (bind_le_bind hcall fun d => proceedBy_mono (Host.within_mono hs n.le_succ) D.effect d
      inputs fun _ _ => le_refl _).trans ?_
    rw [pure_bind]
  · rw [Host.called, Host.does_const hs, pure_bind]
    exact hm'.le_proceed h inputs κ

theorem Renders.within (hm : cb.Renders D m d) (h : c.shadows = true) (f : Φ) :
    ∃ d', cb.Renders D (.within h f m) d' := by
  have hs := cb.host_steady D
  obtain ⟨d', hbuilt, hshaped, hproceed, hwithin⟩ :=
    Host.exists_within_eq hs (D.reads h) hm.shaped (.host (.inl f))
  simp only [does_function] at hproceed hwithin
  refine ⟨d', ?_, hshaped, fun {n} hn inputs κ => ?_, fun {n} hn inputs κ => ?_⟩
  · refine (Host.unbounded_bind hs (m.build_follows D) fun d => Follows.const
      (d.asComp "local" >>= fun c => offer (c.within (.host (.inl f))))).trans ?_
    rw [hm.built, pure_bind, Host.unbounded_const, hbuilt, result_pure]
  · rw [follow_within]
    exact (hwithin n inputs κ).trans (bind_le_bind (le_refl _) fun s => hm.within_le hn _ _)
  · rw [follow_within, hproceed]
    exact bind_le_bind (le_refl _) fun s => hm.le_proceed hn _ _

/-- **A plan that is told goes on as its direct meaning does.** -/
theorem exists_renders [Nonempty σ] (cb : Callbacks σ Φ K P c) (D : Dialect σ Φ K P c)
    (m : Plan Φ K P c) : ∃ d, cb.Renders D m d := by
  -- The cell is the outermost input, so an operation that leaves it alone leaves the inputs alone.
  have heta : ∀ inputs : Inputs (Φ ⊕ K) P, inputs.tail.cons inputs.head = inputs := Stream'.eta
  induction m with
  | unit v =>
    refine exists_renders_of_means (unitOf_means D.stack v) fun n inputs κ => ?_
    exact congrArg (κ v) (heta inputs)
  | look => exact exists_renders_of_means D.look_means fun n inputs κ => rfl
  | put h v => exact exists_renders_of_means (D.put_means h v) fun n inputs κ => rfl
  | fail h =>
    refine exists_renders_of_means (D.fail_means h) fun n inputs κ => ?_
    exact congrArg (fun inputs => (pure (D.lost inputs) : Unbounded _ σ _)) (heta inputs)
  | within h f m ih =>
    obtain ⟨d, hm⟩ := ih
    exact hm.within h f
  | map m f ih =>
    obtain ⟨d, hm⟩ := ih
    exact hm.map f
  | bind m k ih =>
    obtain ⟨d, hm⟩ := ih
    exact hm.bind k
  | andThen m next ih ihnext =>
    obtain ⟨d, hm⟩ := ih
    obtain ⟨d', hnext⟩ := ihnext
    exact hm.andThen hnext

end Renders

/-! ## All bounds -/

theorem called_binder (k : K) (κ : Continuation σ (Φ ⊕ K) P) (v : Item Φ K P)
    (inputs : Inputs (Φ ⊕ K) P) :
    (cb.host D).called D.effect (.host (.inr k)) κ v inputs =
      (cb.binder k v).result >>= fun m => (cb.host D).unbounded (m.build D) >>= fun d =>
        (cb.host D).proceed D.effect d inputs κ := by
  rw [Host.called, does_binder, bind_assoc]

theorem calledBy_binder (n : Nat) (k : K) (κ : Continuation σ (Φ ⊕ K) P) (v : Item Φ K P)
    (inputs : Inputs (Φ ⊕ K) P) :
    calledBy ((cb.host D).within (n + 1)) D.effect (.host (.inr k)) κ v inputs =
      (cb.binder k v).result >>= fun m => (m.build D (perform (cb.host D) n)).result >>= fun d =>
        proceedBy ((cb.host D).within (n + 1)) D.effect d inputs κ := by
  have hcall : (cb.host D).within (n + 1) (.call (.host (.inr k)) [v]) =
      (cb.binder k v >>= fun m => m.build D (perform (cb.host D) n)).result := rfl
  rw [calledBy, hcall, result_bind, bind_assoc]

/-- By induction on the bound: what a binder makes is told, and goes on within the bound before. -/
theorem between [Nonempty σ] (n : Nat) : cb.Between D n := by
  have hs := cb.host_steady D
  induction n with
  | zero =>
    refine fun k κ v inputs => ⟨Host.within_zero_bind_le _ _ _, ?_⟩
    rw [called_binder]
    exact bind_le_bind (le_refl _) fun m _ _ h => nomatch h
  | succ n ih =>
    refine fun k κ v inputs => ⟨?_, ?_⟩
    · rw [calledBy_binder]
      refine bind_le_bind (le_refl _) fun m => ?_
      obtain ⟨d, hm⟩ := cb.exists_renders D m
      have hle : (m.build D (perform (cb.host D) n)).result ≤ pure d := by
        rw [← hm.built]
        exact result_le_unbounded (hs.rising (m.build_follows D)) n
      refine (bind_le_bind hle fun _ => le_refl _).trans ?_
      rw [pure_bind]
      exact hm.within_le ih inputs κ
    · rw [called_binder]
      refine bind_le_bind (le_refl _) fun m => ?_
      obtain ⟨d, hm⟩ := cb.exists_renders D m
      rw [hm.built, pure_bind]
      exact hm.le_proceed ih inputs κ

theorem Renders.proceed_eq [Nonempty σ] {m : Plan Φ K P c} {d : Item Φ K P}
    (hm : cb.Renders D m d) (inputs : Inputs (Φ ⊕ K) P) (κ : Continuation σ (Φ ⊕ K) P) :
    (cb.host D).proceed D.effect d inputs κ =
      cb.acts m inputs.head >>= D.resume κ inputs.tail := by
  have hs := cb.host_steady D
  apply le_antisymm
  · intro w r hr
    obtain ⟨n, hn⟩ := Host.exists_proceedBy hs D.effect d inputs κ hr
    have hsucc := proceedBy_mono (Host.within_mono hs n.le_succ) D.effect d inputs
      (fun v rest => le_refl (κ v rest)) w r hn
    have hfollow := hm.within_le (cb.between D n) inputs κ w r hsucc
    have hacts := result_le_unbounded (m.rising_direct cb inputs.head) (n + 1)
    exact bind_le_bind hacts (fun p => le_refl _) w r hfollow
  · refine unbounded_bind_le fun n => ?_
    cases n with
    | zero => exact fun _ _ h => nomatch h
    | succ n => exact hm.le_proceed (cb.between D n) inputs κ

end Callbacks

/-- The final datum of a complete run. -/
def Dialect.final (D : Dialect σ Φ K P c) (rest : Inputs (Φ ⊕ K) P) : Plan.End Φ K P → Item Φ K P
  | (s, some v) => D.effect.seal v (rest.cons s)
  | (s, none) => D.lost (rest.cons s)

namespace Plan

/-- Tells a plan and runs it completely, within a bound. -/
def runIn (cb : Callbacks σ Φ K P c) (D : Dialect σ Φ K P c) (m : Plan Φ K P c)
    (inputs : Inputs (Φ ⊕ K) P) : Nat → Act σ (Item Φ K P) :=
  (cb.host D).completes D.effect inputs (m.build D)

variable (cb : Callbacks σ Φ K P c) (D : Dialect σ Φ K P c) (m : Plan Φ K P c)
  (inputs : Inputs (Φ ⊕ K) P)

theorem rising_runIn : Rising (m.runIn cb D inputs) :=
  (cb.host_steady D).rising ((m.build_follows D).bind fun d => D.effect.complete_follows d inputs)

/-- **A complete run of a plan that is told comes to its direct meaning**, whatever the dialect. -/
theorem unbounded_runIn :
    Run.unbounded (m.runIn cb D inputs) =
      cb.acts m inputs.head >>= fun p => pure (D.final inputs.tail p) := by
  funext w
  have : Nonempty σ := ⟨w⟩
  obtain ⟨d, hm⟩ := cb.exists_renders D m
  have hshape : ((cb.host D).unbounded (m.build D)).Ensures
      (D.effect.Shaped (cb.host D) fun _ => True) := by
    rw [hm.built]
    exact Ensures.pure hm.shaped
  rw [runIn, Host.unbounded_completes (cb.host_steady D) (m.build_follows D) hshape inputs, hm.built,
    pure_bind, hm.proceed_eq]
  refine congrFun (congrArg _ (funext fun p => ?_)) w
  obtain ⟨s, _ | v⟩ := p <;> rfl

theorem settles_done_iff {w w' : σ} {d : Item Φ K P} :
    Settles (m.runIn cb D inputs) w (.done d) w' ↔
      ∃ p, Settles (fun n => m.direct cb n inputs.head) w (.done p) w' ∧
        D.final inputs.tail p = d := by
  simp only [settles_done (rising_runIn cb D m inputs),
    settles_done (m.rising_direct cb inputs.head), unbounded_runIn, bind_apply, Callbacks.acts,
    Option.bind_eq_some_iff]
  constructor
  · rintro ⟨⟨_ | p, w₁⟩, hacts, heq⟩
    · cases heq
    · cases heq
      exact ⟨p, hacts, rfl⟩
  · rintro ⟨p, hacts, rfl⟩
    exact ⟨_, hacts, rfl⟩

theorem settles_fault_iff {w w' : σ} {err : EffectError} :
    Settles (m.runIn cb D inputs) w (.fault err) w' ↔
      Settles (fun n => m.direct cb n inputs.head) w (.fault err) w' := by
  simp only [settles_fault (rising_runIn cb D m inputs),
    settles_fault (m.rising_direct cb inputs.head), unbounded_runIn, bind_apply, Callbacks.acts,
    Option.bind_eq_some_iff]
  constructor
  · rintro ⟨⟨_ | p, w₁⟩, hacts, heq⟩
    · cases heq
      exact hacts
    · cases heq
  · intro hacts
    exact ⟨_, hacts, rfl⟩

end Plan

end EffectCalculus
