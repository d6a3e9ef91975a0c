import EffectCalculus.Proofs.Effect.Chain

/-!
# Blocks of the maybe effect

A block of the maybe effect gives a present result back to its body at once; a chain binds it, and
checks what the rest of the body comes to. The check can fail earlier than the one around the whole
block, and then meets something else, but it fails exactly when that one does.

* `EffectError.coarse`: errors, with all failed checks taken for one;
* `strictly`, `loosely`: ends seen through the check that follows, for the maybe effect and for any
  other one;
* `Host.Drives`: functions for the rests of a body that do what the body says, up to these checks;
* `Host.Drives.does_eq`: **all such functions come to the same**, in particular those of the block
  (`Host.drives_resume`) and those of a chain (`Host.drives_link`).
-/

namespace EffectCalculus

open Run Unbounded

variable {σ F P : Type}

/-! ## Ends -/

/-- Stands for all failed checks. -/
def EffectError.check : EffectError := .wrongEffect .flatMap .maybe ""

/-- The error as far as its class goes: all failed checks of an effect count as one. -/
def EffectError.coarse : EffectError → EffectError
  | .wrongEffect _ _ _ => check
  | err => err

theorem EffectError.coarse_coarse (err : EffectError) : err.coarse.coarse = err.coarse := by
  cases err <;> rfl

/-- The end, once it is checked for the maybe effect. -/
def strictly : Except EffectError (Datum F P) → Except EffectError (Datum F P)
  | .ok d => if d.isA .maybe then .ok d else .error .check
  | .error err => .error err.coarse

/-- The end, where any result is bound to fail a check. -/
def loosely : Except EffectError (Datum F P) → Except EffectError (Datum F P)
  | .ok _ => .error .check
  | .error err => .error err.coarse

theorem loosely_comp_strictly : loosely (F := F) (P := P) ∘ strictly = loosely := by
  funext r
  cases r with
  | ok d => by_cases hd : d.isA .maybe = true <;> simp [strictly, loosely, hd, EffectError.coarse,
      EffectError.check]
  | error err => simp [strictly, loosely, EffectError.coarse_coarse]

/-- The check for the maybe effect is not seen by who makes it again. -/
theorem ensure_ended_strictly (slot : Slot) (d : Datum F P) :
    (d.ensure slot .maybe : Act σ _).result.ended strictly =
      (pure d : Unbounded EffectError σ (Datum F P)).ended strictly := by
  funext w
  by_cases hd : d.isA .maybe = true
  · simp [Datum.ensure, hd]
  · simp [Datum.ensure, hd, ended, Unbounded.pure_apply, Unbounded.fault_apply, strictly,
      EffectError.coarse]

/-- No check is seen by who takes all results for failed checks. -/
theorem ensure_ended_loosely (slot : Slot) (e : Effect) (d : Datum F P) :
    (d.ensure slot e : Act σ _).result.ended loosely =
      (pure d : Unbounded EffectError σ (Datum F P)).ended loosely := by
  funext w
  by_cases hd : d.isA e = true
  · simp [Datum.ensure, hd]
  · simp [Datum.ensure, hd, ended, Unbounded.pure_apply, Unbounded.fault_apply, loosely,
      EffectError.coarse]

theorem ended_loosely_of_strictly {m m' : Unbounded EffectError σ (Datum F P)}
    (h : m.ended strictly ≤ m'.ended strictly) : m.ended loosely ≤ m'.ended loosely := by
  rw [← loosely_comp_strictly, ← ended_ended, ← ended_ended]
  exact ended_le h loosely

/-- Where no result is of the maybe effect, both views agree. -/
theorem ended_strictly_eq_loosely {m : Unbounded EffectError σ (Datum F P)}
    (hm : m.Ensures fun d => d.isA .maybe = false) : m.ended strictly = m.ended loosely := by
  funext w
  unfold ended
  cases hw : m w with
  | none => rfl
  | some p =>
    obtain ⟨r, w'⟩ := p
    cases r with
    | ok d => simp [strictly, loosely, hm w d w' hw]
    | error err => rfl

/-! ## Binding other effects -/

namespace Host

variable {host : Host σ F P} {f f' : Fn F P}

/-- A result that has passed the check for the identity effect. -/
theorem ensure_identity_ensures (slot : Slot) (d : Datum F P) :
    (d.ensure slot .identity : Act σ _).result.Ensures fun d => d.isA .maybe = false := by
  by_cases hd : d.isA .identity = true
  · have hmaybe : d.isA .maybe = false := by
      cases d with
      | comp m => cases m <;> simp_all [Datum.isA, Comp.effect, Effect.isA]
      | _ => rfl
    simp only [Datum.ensure, hd]
    exact Ensures.pure hmaybe
  · simp only [Datum.ensure, hd]
    exact Ensures.fault _

/-- What is bound in another effect gives no optional result. -/
theorem bind_ensures_other {m : Comp F P} (hm : m.effect ≠ .maybe) (f : Fn F P) (n : Nat) :
    (perform host n (.bind (.comp m) f)).result.Ensures fun d => d.isA .maybe = false := by
  have anything : ∀ u : Unbounded EffectError σ (Datum F P), u.Ensures fun _ => True :=
    fun _ _ _ _ _ => trivial
  cases n with
  | zero => exact fun _ _ _ h => nomatch h
  | succ n =>
    simp only [perform, Task.attempt]
    cases m with
    | some | nothing => exact absurd rfl hm
    | identity v =>
      rw [Comp.bindWith, result_bind]
      exact (anything _).bind fun d _ => ensure_identity_ensures _ d
    | reader m | state m =>
      simp only [Comp.bindWith]
      split
      · exact Ensures.pure rfl
      · exact Ensures.fault _
    | readerT bases m | stateT bases m => exact Ensures.pure rfl
    | maybeT bases d =>
      simp only [Comp.bindWith]
      split
      · exact Ensures.fault _
      · rw [result_bind]
        exact (anything _).bind fun d _ => Ensures.pure rfl

/-- Goes on with what a binder of a maybe transformer has made. -/
def entered (bases : Bases) (d : Datum F P) : Act σ (Datum F P) := do
  match ← d.ensure .binder (.transformer .maybe bases) with
  | .comp (.maybeT _ inner) => return inner
  | d => Run.fault (.unsupported "run" d.kind)

/-- It is of the transformer, or a check fails. -/
theorem entered_ended_loosely (bases : Bases) (d : Datum F P) :
    (entered bases d : Act σ _).result.ended loosely =
      (pure d : Unbounded EffectError σ (Datum F P)).ended loosely := by
  by_cases hd : d.isA (.transformer .maybe bases) = true
  · cases d with
    | comp m =>
      cases m with
      | maybeT bases' inner =>
        simp only [entered, Datum.ensure, hd]
        rfl
      | _ => simp [Datum.isA, Comp.effect, Effect.isA] at hd
    | _ => simp [Datum.isA] at hd
  · rw [← ensure_ended_loosely .binder (.transformer .maybe bases) d]
    simp only [entered, Datum.ensure, hd]
    rfl

section Steady

variable (hs : host.Steady)

include hs

/-- Going on in a maybe transformer keeps the order of what is seen loosely. -/
theorem thenMaybe_ended_le {n : Nat} (bases : Bases)
    (h : ∀ j ≤ n, ∀ v, (perform host j (.call f [v])).result.ended loosely ≤
      (host.does (.call f' [v])).ended loosely) :
    ∀ j ≤ n, ∀ v, (perform host j (.call (.thenMaybe bases f) [v])).result.ended loosely ≤
      (host.does (.call (.thenMaybe bases f') [v])).ended loosely := by
  intro j hj o
  cases j with
  | zero => exact fun _ _ h => nomatch h
  | succ j =>
    by_cases ho : ∃ v, o = .comp (.some v)
    · obtain ⟨v, rfl⟩ := ho
      have hleft : perform host (j + 1) (.call (.thenMaybe bases f) [.comp (.some v)]) =
          perform host j (.call f [v]) >>= entered bases := rfl
      have hright : host.does (.call (.thenMaybe bases f') [.comp (.some v)]) =
          host.does (.call f' [v]) >>= fun d => (entered bases d).result := by
        rw [does_eq hs]
        exact unbounded_task_bind_const hs _ _
      rw [hleft, hright, result_bind, ended_bind_of_pure _ (entered_ended_loosely bases),
        ended_bind_of_pure _ (entered_ended_loosely bases)]
      exact h j (Nat.le_of_succ_le hj) v
    · have habsent : ∀ v, o ≠ .comp (.some v) := fun v hv => ho ⟨v, hv⟩
      rw [does_thenMaybe_absent hs _ _ habsent, ← does_thenMaybe_absent hs bases f habsent]
      exact ended_le (result_le_unbounded (hs.rising (Follows.task _)) (j + 1)) loosely

/-- Binding keeps the order of what is seen loosely. The recursion is on the bound: a maybe
transformer hands the bind down to its base. -/
theorem bind_ended_le (n : Nat) (hf : f.callable = true) (hf' : f'.callable = true)
    (h : ∀ j ≤ n, ∀ v, (perform host j (.call f [v])).result.ended loosely ≤
      (host.does (.call f' [v])).ended loosely) (d : Datum F P) :
    (perform host n (.bind d f)).result.ended loosely ≤
      (host.does (.bind d f')).ended loosely := by
  induction n generalizing f f' d with
  | zero => exact fun _ _ h => nomatch h
  | succ n ih =>
    have same : perform host (n + 1) (.bind d f) = perform host (n + 1) (.bind d f') →
        (perform host (n + 1) (.bind d f)).result.ended loosely ≤
          (host.does (.bind d f')).ended loosely := by
      intro heq
      rw [heq]
      exact ended_le (result_le_unbounded (hs.rising (Follows.task _)) (n + 1)) loosely
    cases d with
    | comp m =>
      cases m with
      | some v =>
        have hleft : perform host (n + 1) (.bind (.comp (.some v)) f) =
            perform host n (.call f [v]) >>= fun d => d.ensure .flatMap .maybe := rfl
        rw [hleft, does_bind_some hs, result_bind,
          ended_bind_of_pure _ (ensure_ended_loosely .flatMap .maybe),
          ended_bind_of_pure _ (ensure_ended_loosely .flatMap .maybe)]
        exact h n (Nat.le_succ n) v
      | nothing => exact same rfl
      | identity v =>
        have hleft : perform host (n + 1) (.bind (.comp (.identity v)) f) =
            perform host n (.call f [v]) >>= fun d => d.ensure .flatMap .identity := rfl
        rw [hleft, does_bind_identity hs, result_bind,
          ended_bind_of_pure _ (ensure_ended_loosely .flatMap .identity),
          ended_bind_of_pure _ (ensure_ended_loosely .flatMap .identity)]
        exact h n (Nat.le_succ n) v
      | reader m =>
        have hleft : perform host (n + 1) (.bind (.comp (.reader m)) f) =
            pure (.comp (.reader (.bind m f))) := by
          simp [perform, Task.attempt, Comp.bindWith, hf]
        rw [hleft, does_bind_reader hs m hf']
        exact le_refl _
      | state m =>
        have hleft : perform host (n + 1) (.bind (.comp (.state m)) f) =
            pure (.comp (.state (.bind m f))) := by
          simp [perform, Task.attempt, Comp.bindWith, hf]
        rw [hleft, does_bind_state hs m hf']
        exact le_refl _
      | readerT bases m =>
        rw [does_bind_readerT hs]
        exact le_refl _
      | stateT bases m =>
        rw [does_bind_stateT hs]
        exact le_refl _
      | maybeT bases inner =>
        cases bases with
        | bare => exact same rfl
        | onto inner' base =>
          have hleft : perform host (n + 1) (.bind (.comp (.maybeT (.onto inner' base) inner)) f) =
              perform host n (.bind inner (.thenMaybe (.onto inner' base) f)) >>= fun d =>
                pure (.comp (.maybeT (.onto inner' base) d)) := rfl
          have wrapped : ∀ u : Unbounded EffectError σ (Datum F P),
              (u >>= fun d => pure (.comp (.maybeT (.onto inner' base) d))).ended loosely =
                u.ended loosely := fun u => ended_bind_of_pure u fun _ => rfl
          rw [hleft, does_bind_maybeT hs, result_bind, wrapped]
          simp only [result_pure, wrapped]
          refine ih rfl rfl (thenMaybe_ended_le hs _ fun j hj v => ?_) inner
          exact h j (Nat.le_succ_of_le hj) v
    | _ => exact same rfl

/-! ## Driving a body -/

end Steady

/-- What a body's progress leads to, when `K` gives the functions for its rests and `does` what
tasks come to. A present result is given back at once. -/
def onward (does : Task F P → Unbounded EffectError σ (Datum F P)) (K : P → Fn F P) :
    Progress F P → Unbounded EffectError σ (Datum F P)
  | .returned v => pure (.comp (.some v))
  | .yielded (.comp (.some v)) rest => does (.call (K rest) [v])
  | .yielded (.comp m) rest => does (.bind (.comp m) (K rest))
  | .yielded d _ => .fault (.badYield d.kind .maybe)

theorem onward_other (does : Task F P → Unbounded EffectError σ (Datum F P)) (K : P → Fn F P)
    {m : Comp F P} (hm : m.effect ≠ .maybe) (rest : P) :
    onward does K (.yielded (.comp m) rest) = does (.bind (.comp m) (K rest)) := by
  cases m with
  | some => exact absurd rfl hm
  | _ => rfl

/-- The functions drive a body of the maybe effect: at every bound they do no more than its progress
leads to, and without a bound no less. -/
structure Drives (host : Host σ F P) (K : P → Fn F P) : Prop where
  callable (p : P) : (K p).callable = true
  le (n : Nat) (p : P) (x : Datum F P) :
    (perform host (n + 1) (.call (K p) [x])).result.ended strictly ≤
      ((host.resume (perform host n) p x).result >>=
        onward (fun t => (perform host n t).result) K).ended strictly
  ge (p : P) (x : Datum F P) :
    ((host.unbounded fun go => host.resume go p x) >>= onward host.does K).ended strictly ≤
      (host.does (.call (K p) [x])).ended strictly

namespace Drives

variable {K K' : P → Fn F P} (hs : host.Steady)

include hs

/-- The functions of one family do no more than those of another. -/
theorem ended_le (hK : host.Drives K) (hK' : host.Drives K') (n : Nat) (p : P) (x : Datum F P) :
    (perform host n (.call (K p) [x])).result.ended strictly ≤
      (host.does (.call (K' p) [x])).ended strictly := by
  induction n using Nat.strong_induction_on generalizing p x with
  | _ n ih =>
    cases n with
    | zero => exact fun _ _ h => nomatch h
    | succ n =>
      refine le_trans (hK.le n p x) (le_trans (ended_bind_le ?_ fun progress => ?_) (hK'.ge p x))
      · exact result_le_unbounded (hs.rising fun _ _ h => hs.resume h p x) n
      · cases progress with
        | returned v => exact le_refl _
        | yielded d rest =>
          cases d with
          | comp m =>
            by_cases hm : m.effect = .maybe
            · cases m with
              | some v => exact ih n (Nat.lt_succ_self n) rest v
              | nothing =>
                have heq : perform host n (.bind (.comp .nothing) (K rest)) =
                    perform host n (.bind (.comp .nothing) (K' rest)) := by
                  cases n <;> rfl
                simp only [onward, heq]
                exact Unbounded.ended_le
                  (result_le_unbounded (hs.rising (Follows.task _)) n) strictly
              | _ => cases hm
            · have hother : (host.does (.bind (.comp m) (K' rest))).Ensures
                  fun d => d.isA .maybe = false := unbounded_ensures (bind_ensures_other hm _)
              rw [onward_other _ K hm, onward_other _ K' hm, ended_strictly_eq_loosely hother,
                ended_strictly_eq_loosely (bind_ensures_other hm _ n)]
              refine bind_ended_le hs n (hK.callable rest) (hK'.callable rest) ?_ _
              intro j hj v
              exact ended_loosely_of_strictly (ih j (Nat.lt_succ_of_le hj) rest v)
          | _ => exact le_refl _

/-- **Whatever drives a body comes to the same**, up to the check that follows. -/
theorem does_eq (hK : host.Drives K) (hK' : host.Drives K') (p : P) (x : Datum F P) :
    (host.does (.call (K p) [x])).ended strictly = (host.does (.call (K' p) [x])).ended strictly :=
  le_antisymm (unbounded_ended_le fun n => hK.ended_le hs hK' n p x)
    (unbounded_ended_le fun n => hK'.ended_le hs hK n p x)

end Drives

section Steady

variable (hs : host.Steady)

include hs

/-- A bound present result is one given back at once, up to the check. -/
theorem bind_some_ended (f : Fn F P) (v : Datum F P) :
    (host.does (.bind (.comp (.some v)) f)).ended strictly =
      (host.does (.call f [v])).ended strictly := by
  rw [does_bind_some hs, ended_bind_of_pure _ (ensure_ended_strictly .flatMap)]

theorem bind_some_ended_le (f : Fn F P) (v : Datum F P) (n : Nat) :
    (perform host n (.bind (.comp (.some v)) f)).result.ended strictly ≤
      (perform host n (.call f [v])).result.ended strictly := by
  cases n with
  | zero => exact fun _ _ h => nomatch h
  | succ n =>
    have hleft : perform host (n + 1) (.bind (.comp (.some v)) f) =
        perform host n (.call f [v]) >>= fun d => d.ensure .flatMap .maybe := rfl
    rw [hleft, result_bind, ended_bind_of_pure _ (ensure_ended_strictly .flatMap)]
    exact ended_le (perform_below hs (Nat.le_succ n) _).result_le strictly

/-- A family of functions drives a body if each call resumes it and then takes a step that is, up to
the check, where the body's progress leads. -/
theorem Drives.of_step {K : P → Fn F P}
    {step : Performer σ F P → Progress F P → Act σ (Datum F P)}
    (hcallable : ∀ p, (K p).callable = true)
    (hcall : ∀ go p x, (K p).callWith host go [x] = host.resume go p x >>= step go)
    (hstep : ∀ progress, Follows fun go => step go progress)
    (hle : ∀ n progress, (step (perform host n) progress).result.ended strictly ≤
      (onward (fun t => (perform host n t).result) K progress).ended strictly)
    (hge : ∀ progress, (onward host.does K progress).ended strictly ≤
      (host.unbounded fun go => step go progress).ended strictly) : host.Drives K where
  callable := hcallable
  le n p x := by
    have hleft : perform host (n + 1) (.call (K p) [x]) =
        host.resume (perform host n) p x >>= step (perform host n) := hcall _ p x
    rw [hleft, result_bind]
    exact ended_bind_le (le_refl _) (hle n)
  ge p x := by
    have resumes : Follows fun go : Performer σ F P => host.resume go p x :=
      fun _ _ h => hs.resume h p x
    have hright : host.does (.call (K p) [x]) = (host.unbounded fun go => host.resume go p x) >>=
        fun progress => host.unbounded fun go => step go progress := by
      rw [Host.does_eq hs]
      simp only [Task.attempt, hcall]
      exact unbounded_bind hs resumes hstep
    rw [hright]
    exact ended_bind_le (le_refl _) hge

theorem drives_resume : host.Drives fun p => .resume .maybe p := by
  refine Drives.of_step hs (fun _ => rfl) (fun _ _ _ => rfl) ?_ ?_ ?_
  · intro progress
    cases progress with
    | returned v => exact Follows.const _
    | yielded d rest =>
      cases d with
      | comp m => cases m <;> exact Follows.task _
      | _ => exact Follows.const _
  · intro n progress
    cases progress with
    | returned v => exact le_refl _
    | yielded d rest =>
      cases d with
      | comp m => cases m <;> exact le_refl _
      | _ => exact le_refl _
  · intro progress
    cases progress with
    | returned v =>
      rw [unbounded_const]
      exact le_refl _
    | yielded d rest =>
      cases d with
      | comp m => cases m <;> exact le_refl _
      | _ =>
        rw [unbounded_const]
        exact le_refl _

theorem drives_link {c : Chain F P} (hc : host.Chains c) (he : c.effect = .maybe) :
    host.Drives fun p => .host (c.link p) := by
  refine Drives.of_step hs (fun _ => rfl) (fun go p x => hc.link go p x) ?_ ?_ ?_
  · intro progress
    cases progress with
    | returned v => exact Follows.const _
    | yielded d rest =>
      cases d with
      | comp m => exact Follows.task _
      | _ => exact Follows.const _
  · intro n progress
    cases progress with
    | returned v =>
      rw [he]
      exact le_refl _
    | yielded d rest =>
      cases d with
      | comp m =>
        cases m with
        | some v => exact bind_some_ended_le hs _ v n
        | _ => exact le_refl _
      | _ =>
        rw [he]
        exact le_refl _
  · intro progress
    cases progress with
    | returned v =>
      rw [he, unbounded_const]
      exact le_refl _
    | yielded d rest =>
      cases d with
      | comp m =>
        cases m with
        | some v => exact le_of_eq (bind_some_ended hs _ v).symm
        | _ => exact le_refl _
      | _ =>
        rw [he, unbounded_const]
        exact le_refl _

end Steady

end Host

end EffectCalculus
