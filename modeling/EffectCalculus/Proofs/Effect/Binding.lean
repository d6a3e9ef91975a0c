import EffectCalculus.Proofs.Effect.Task

/-!
# What binding does at once

Some computations call their binder as soon as it is bound to them, and all others put it away. A
maybe transformer goes by the computation that it holds; if it holds none, there is nothing to bind.

* `Effect.isA_trans`, `Datum.isA_eq_of_isA`: special cases of effects;
* `EffectError.isCheck`: the errors of failed checks;
* `Datum.binding`: what binding a computation does with the binder;
* `Host.Binds`: how binding comes to that, and what is left to do after the call of the binder;
* `Host.perform_binds`: **binding calls its binder at most once**.
-/

namespace EffectCalculus

open Run

variable {σ F P : Type}

/-! ## Special cases of effects -/

theorem Bases.refines_trans {a b c : Bases} (h : a.refines b = true) (h' : b.refines c = true) :
    a.refines c = true := by
  match a with
  | .bare =>
    rw [(Bases.refines_bare_iff b).mp h] at h'
    exact h'
  | .onto inner base =>
    unfold Bases.refines at h ⊢
    simp only [Bool.or_eq_true, decide_eq_true_eq] at h ⊢
    rcases h with rfl | h
    · unfold Bases.refines at h'
      simpa only [Bool.or_eq_true, decide_eq_true_eq] using h'
    · exact .inr (refines_trans h h')

theorem Effect.isA_trans {a b c : Effect} (h : a.isA b = true) (h' : b.isA c = true) :
    a.isA c = true := by
  match a, b, c with
  | .transformer layer a, .transformer layer' b, .transformer layer'' c =>
    simp only [Effect.isA, Bool.and_eq_true, decide_eq_true_eq] at h h' ⊢
    exact ⟨h.1.trans h'.1, Bases.refines_trans h.2 h'.2⟩
  | .maybe, _, _ | .reader, _, _ | .state, _, _ | .identity, _, _ =>
    simp only [Effect.isA, decide_eq_true_eq] at h
    rwa [h]
  | .transformer .., .maybe, _ | .transformer .., .reader, _ | .transformer .., .state, _
  | .transformer .., .identity, _ => simp [Effect.isA] at h
  | _, .transformer .., .maybe | _, .transformer .., .reader | _, .transformer .., .state
  | _, .transformer .., .identity => simp [Effect.isA] at h'

/-- The effects whose binds are checked at once have no other special cases. -/
theorem Datum.isA_eq_of_isA {e : Effect} (he : e = .maybe ∨ e = .identity) {r : Datum F P}
    (hr : r.isA e = true) (s : Effect) : r.isA s = e.isA s := by
  cases r with
  | comp m =>
    obtain rfl | rfl := he <;> cases m <;>
      first
        | rfl
        | simp [Datum.isA, Comp.effect, Effect.isA] at hr
  | _ => cases hr

/-! ## Failed checks -/

/-- A check of the effects has failed. -/
def EffectError.isCheck : EffectError → Bool
  | .wrongEffect .. | .noBase _ | .badYield .. => true
  | _ => false

/-- Failed checks count as errors of type. -/
theorem EffectError.kind_of_isCheck {err : EffectError} (h : err.isCheck = true) :
    err.kind = .type := by
  cases err <;> first | rfl | cases h

theorem Effect.isCheck_of_unit {e : Effect} {v : Datum F P} {err : EffectError}
    (h : e.unit v = .error err) : err.isCheck = true := by
  match e with
  | .maybe | .identity | .reader | .state | .transformer .reader (.onto _ _)
  | .transformer .state (.onto _ _) => simp [Effect.unit] at h
  | .transformer layer .bare =>
    simp only [Effect.unit, Except.error.injEq] at h
    subst h
    rfl
  | .transformer .maybe (.onto inner base) =>
    cases hc : base.unit (.comp (.some v)) with
    | ok c => simp [Effect.unit, hc, bind, Except.bind, pure, Except.pure] at h
    | error err' =>
      simp only [Effect.unit, hc, bind, Except.bind, Except.error.injEq] at h
      subst h
      exact isCheck_of_unit hc

theorem unitOf_eq (e : Effect) (v : Datum F P) :
    (unitOf e v : Act σ (Datum F P)) = Run.ofExcept (e.unit v >>= fun c => pure (.comp c)) := by
  unfold unitOf
  cases e.unit v <;> rfl

theorem Run.ofExcept_ends {α : Type} (x : Except EffectError α) (w : σ) :
    ((Run.ofExcept x : Act σ α) w).1 ≠ .unfinished := by
  cases x <;> simp

theorem Bases.isCheck_of_unit {layer : Layer} {bases : Bases} {v : Datum F P} {err : EffectError}
    (h : bases.unit layer v = .error err) : err.isCheck = true := by
  unfold Bases.unit at h
  split at h
  · exact Effect.isCheck_of_unit h
  · cases h
    rfl

/-- `Datum.ensure` before it is an action. -/
def Datum.checked (slot : Slot) (e : Effect) (d : Datum F P) : Except EffectError (Datum F P) :=
  if d.isA e then .ok d else .error (.wrongEffect slot e d.kind)

theorem Datum.ensure_eq (slot : Slot) (e : Effect) (d : Datum F P) :
    (d.ensure slot e : Act σ (Datum F P)) = Run.ofExcept (d.checked slot e) := by
  unfold Datum.ensure Datum.checked
  split <;> rfl

theorem Datum.checked_eq_ok {slot : Slot} {e : Effect} {d r : Datum F P} :
    d.checked slot e = .ok r ↔ d.isA e = true ∧ d = r := by
  unfold Datum.checked
  split <;> simp_all

/-- What a maybe transformer holds. -/
def Datum.held : Datum F P → Except EffectError (Datum F P)
  | .comp (.maybeT _ inner) => .ok inner
  | d => .error (.unsupported "run" d.kind)

theorem Datum.isCheck_of_checked {slot : Slot} {e : Effect} {d : Datum F P} {err : EffectError}
    (h : d.checked slot e = .error err) : err.isCheck = true := by
  unfold Datum.checked at h
  split at h
  · cases h
  · cases h
    rfl

/-! ## Binding -/

/-- What binding does with the binder at once. -/
inductive Binding (F P : Type)
  | calls (v : Datum F P)
  /-- The binder is put away, or nobody will ever call it. -/
  | rests
  /-- There is no computation to bind, but something of this kind. -/
  | hollow (kind : String)

/-- A maybe transformer binds what it holds, and calls the binder with a present result of it. -/
def Datum.binding : Datum F P → Binding F P
  | .comp (.some v) | .comp (.identity v) => .calls v
  | .comp (.maybeT (.onto _ _) inner) =>
    match inner.binding with
    | .calls (.comp (.some v)) => .calls v
    | .hollow kind => .hollow kind
    | _ => .rests
  | .comp _ => .rests
  | d => .hollow d.kind

/-- The end is a result of the same effect as `d`, or a failed check. -/
def Datum.Passes (d : Datum F P) : Except EffectError (Datum F P) → Prop
  | .ok r => ∀ s, r.isA s = d.isA s
  | .error err => err.isCheck = true

/-- Binding `f` to `d` comes to this, if the bound is at least `j`: a call of the binder and then no
further task, or no task at all. -/
inductive Host.Binds (host : Host σ F P) (d : Datum F P) (f : Fn F P) : Binding F P → Prop
  | calls {v : Datum F P} (j : Nat) (finish : Datum F P → Except EffectError (Datum F P))
    (hfinish : ∀ r, d.Passes (finish r))
    (h : ∀ n, perform host (n + j) (.bind d f) =
      perform host n (.call f [v]) >>= fun r => Run.ofExcept (finish r)) : Binds host d f (.calls v)
  | rests (j : Nat) (x : Except EffectError (Datum F P)) (hx : d.Passes x)
    (h : ∀ n, perform host (n + j) (.bind d f) = Run.ofExcept x) : Binds host d f .rests
  | hollow (j : Nat) (kind : String)
    (h : ∀ n, perform host (n + j) (.bind d f) = Run.fault (.unsupported "flat_map" kind)) :
    Binds host d f (.hollow kind)

namespace Host

variable {host : Host σ F P}

/-- An effect that checks at once what its binder gives. -/
theorem Binds.of_check {d : Datum F P} {e : Effect} (he : e = .maybe ∨ e = .identity)
    (hd : ∀ s, d.isA s = e.isA s) {v : Datum F P} {f : Fn F P}
    (h : ∀ n, perform host (n + 1) (.bind d f) =
      perform host n (.call f [v]) >>= fun r => r.ensure .flatMap e) :
    host.Binds d f (.calls v) := by
  refine .calls 1 (fun r => r.checked .flatMap e) (fun r => ?_) fun n => ?_
  · cases hr : r.checked .flatMap e with
    | ok r' =>
      obtain ⟨hisA, rfl⟩ := Datum.checked_eq_ok.mp hr
      intro s
      rw [Datum.isA_eq_of_isA he hisA, hd]
    | error err => exact Datum.isCheck_of_checked hr
  · simp only [h, Datum.ensure_eq]

/-- An effect that puts its binders away. -/
theorem Binds.of_recorded (d r : Datum F P) (hd : d.binding = .rests)
    (hr : ∀ s, r.isA s = d.isA s) {f : Fn F P}
    (h : ∀ n, perform host (n + 1) (.bind d f) = pure r) : host.Binds d f d.binding :=
  hd ▸ .rests 1 (.ok r) hr h

/-- What a maybe transformer makes of the end of binding what it holds. -/
theorem passes_maybeT (bases : Bases) {inner : Datum F P} {x : Except EffectError (Datum F P)}
    (hx : inner.Passes x) :
    (Datum.comp (.maybeT bases inner)).Passes (x >>= fun d => pure (.comp (.maybeT bases d))) := by
  cases x with
  | ok d => exact fun s => rfl
  | error err => exact hx

theorem perform_thenMaybe_some (bases : Bases) (f : Fn F P) (v : Datum F P) (n : Nat) :
    perform host (n + 1) (.call (.thenMaybe bases f) [.comp (.some v)]) =
      perform host n (.call f [v]) >>= fun r =>
        Run.ofExcept (r.checked .binder (.transformer .maybe bases) >>= Datum.held) := by
  simp only [perform, Task.attempt, Fn.callWith, Datum.ensure_eq]
  refine bind_congr fun r => ?_
  cases hr : r.checked .binder (.transformer .maybe bases) with
  | error err => rfl
  | ok r' =>
    obtain ⟨hisA, rfl⟩ := Datum.checked_eq_ok.mp hr
    cases r with
    | comp m => cases m <;> rfl
    | _ => rfl

theorem perform_thenMaybe_absent (bases : Bases) (f : Fn F P) {v : Datum F P}
    (hv : ∀ u, v ≠ .comp (.some u)) (n : Nat) :
    perform host (n + 1) (.call (.thenMaybe bases f) [v]) =
      Run.ofExcept (bases.unit .maybe (.comp .nothing) >>= fun c => pure (.comp c)) := by
  have habsent : perform host (n + 1) (.call (.thenMaybe bases f) [v]) =
      baseUnitOf .maybe bases (.comp .nothing) := by
    simp only [perform, Task.attempt, Fn.callWith]
  rw [habsent, baseUnitOf]
  cases bases.unit .maybe (.comp .nothing) <;> rfl

/-- What is left to do for a maybe transformer once the binder has given `r`. -/
def finishMaybeT (bases : Bases) (finish : Datum F P → Except EffectError (Datum F P))
    (r : Datum F P) : Except EffectError (Datum F P) := do
  let m ← r.checked .binder (.transformer .maybe bases)
  let held ← m.held
  let d ← finish held
  return .comp (.maybeT bases d)

theorem passes_finishMaybeT (bases : Bases) {inner : Datum F P}
    {finish : Datum F P → Except EffectError (Datum F P)} (hfinish : ∀ r, inner.Passes (finish r))
    (r : Datum F P) : (Datum.comp (.maybeT bases inner)).Passes (finishMaybeT bases finish r) := by
  unfold finishMaybeT
  cases hr : r.checked .binder (.transformer .maybe bases) with
  | error err => exact Datum.isCheck_of_checked hr
  | ok r' =>
    obtain ⟨hisA, rfl⟩ := Datum.checked_eq_ok.mp hr
    obtain ⟨held, hheld⟩ : ∃ held, r.held = .ok held := by
      cases r with
      | comp m =>
        cases m with
        | maybeT bases' d => exact ⟨d, rfl⟩
        | _ => simp [Datum.isA, Comp.effect, Effect.isA] at hisA
      | _ => cases hisA
    show Datum.Passes _ (r.held >>= fun held => finish held >>= _)
    rw [hheld]
    exact passes_maybeT bases (hfinish held)

/-- A maybe transformer over what it holds. -/
theorem Binds.maybeT (bases : Bases) (base : Effect) {d : Datum F P} {f : Fn F P}
    (h : host.Binds d (.thenMaybe (.onto bases base) f) d.binding) :
    host.Binds (.comp (.maybeT (.onto bases base) d)) f
      (Datum.comp (.maybeT (.onto bases base) d)).binding := by
  have hstep : ∀ n, perform host (n + 1) (.bind (.comp (.maybeT (.onto bases base) d)) f) =
      perform host n (.bind d (.thenMaybe (.onto bases base) f)) >>=
        fun d => pure (.comp (.maybeT (.onto bases base) d)) := fun n => rfl
  generalize hd : d.binding = b at h
  simp only [Datum.binding, hd]
  cases h with
  | rests j x hx h =>
    refine .rests (j + 1) _ (passes_maybeT _ hx) fun n => ?_
    rw [← Nat.add_assoc, hstep, h]
    cases x <;> rfl
  | hollow j kind h =>
    refine .hollow (j + 1) kind fun n => ?_
    rw [← Nat.add_assoc, hstep, h]
    rfl
  | @calls v j finish hfinish h =>
    by_cases hv : ∃ u, v = .comp (.some u)
    · obtain ⟨u, rfl⟩ := hv
      refine .calls (j + 2) _ (passes_finishMaybeT _ hfinish) fun n => ?_
      have hn : n + (j + 2) = n + 1 + j + 1 := by omega
      rw [hn, hstep, h, perform_thenMaybe_some]
      simp only [finishMaybeT, Run.ofExcept_bind, Run.ofExcept_pure, bind_assoc]
    · have habsent : ∀ u, v ≠ .comp (.some u) := fun u hu => hv ⟨u, hu⟩
      have hrests : (match Binding.calls v with
          | .calls (.comp (.some u)) => Binding.calls u
          | .hollow kind => .hollow kind
          | _ => .rests) = .rests := by
        split
        · next hcalls => exact absurd (Binding.calls.inj hcalls) (habsent _)
        · next hhollow => cases hhollow
        · rfl
      rw [hrests]
      refine .rests (j + 2) ((Bases.onto bases base).unit .maybe (.comp .nothing) >>= fun c =>
        finish (.comp c) >>= fun d => pure (.comp (.maybeT (.onto bases base) d))) ?_ fun n => ?_
      · cases hunit : (Bases.onto bases base).unit .maybe (.comp .nothing) with
        | error err => exact Bases.isCheck_of_unit hunit
        | ok c => exact passes_maybeT _ (hfinish (.comp c))
      · have hn : n + (j + 2) = n + 1 + j + 1 := by omega
        rw [hn, hstep, h, perform_thenMaybe_absent _ _ habsent]
        simp only [Run.ofExcept_bind, Run.ofExcept_pure, bind_assoc, pure_bind]

/-- **Binding calls its binder at most once.** -/
theorem perform_binds (d : Datum F P) {f : Fn F P} (hcall : f.callable = true) :
    host.Binds d f d.binding := by
  -- Structural on `d`: a maybe transformer binds what it holds.
  match d with
  | .comp (.some v) => exact .of_check (.inl rfl) (fun _ => rfl) fun _ => rfl
  | .comp (.identity v) => exact .of_check (.inr rfl) (fun _ => rfl) fun _ => rfl
  | .comp .nothing =>
    exact Binds.of_recorded (.comp .nothing) (.comp .nothing) rfl (fun _ => rfl) fun _ => rfl
  | .comp (.reader m) =>
    refine Binds.of_recorded (.comp (.reader m)) (.comp (.reader (.bind m f))) rfl
      (fun _ => rfl) fun n => ?_
    simp only [perform, Task.attempt, Comp.bindWith, hcall, if_true]
  | .comp (.state m) =>
    refine Binds.of_recorded (.comp (.state m)) (.comp (.state (.bind m f))) rfl
      (fun _ => rfl) fun n => ?_
    simp only [perform, Task.attempt, Comp.bindWith, hcall, if_true]
  | .comp (.readerT bases m) =>
    exact Binds.of_recorded (.comp (.readerT bases m)) (.comp (.readerT bases (.bind m f))) rfl
      (fun _ => rfl) fun _ => rfl
  | .comp (.stateT bases m) =>
    exact Binds.of_recorded (.comp (.stateT bases m)) (.comp (.stateT bases (.bind m f))) rfl
      (fun _ => rfl) fun _ => rfl
  | .comp (.maybeT .bare inner) =>
    exact .rests 1 (.error (.noBase (.transformer .maybe .bare))) rfl fun _ => rfl
  | .comp (.maybeT (.onto bases base) inner) => exact .maybeT bases base (perform_binds inner rfl)
  | .null | .bool _ | .int _ | .text _ | .list _ | .tuple _ => exact .hollow 1 _ fun _ => rfl

section Steady

variable (hs : host.Steady) {d r : Datum F P} {f : Fn F P} {b : Binding F P} {err : EffectError}
  {n : Nat} {w w' : σ}

include hs

/-- What comes out of binding is of the same effect. -/
theorem Binds.isA (h : host.Binds d f b) (hr : perform host n (.bind d f) w = (.done r, w'))
    (s : Effect) : r.isA s = d.isA s := by
  have larger : ∀ j, perform host (n + j) (.bind d f) w = (.done r, w') := fun j =>
    (perform_below hs (Nat.le_add_right n j) _ w (by simp [hr])).trans hr
  cases h with
  | @calls v j finish hfinish hbind =>
    have hr := larger j
    rw [hbind, Run.bind_eq_done] at hr
    obtain ⟨a, w₁, -, ha⟩ := hr
    have hpass := hfinish a
    cases hx : finish a with
    | ok r' =>
      rw [hx] at ha hpass
      cases ha
      exact hpass s
    | error err =>
      rw [hx] at ha
      cases ha
  | rests j x hx hbind =>
    have hr := larger j
    rw [hbind] at hr
    cases x with
    | ok r' =>
      cases hr
      exact hx s
    | error err => cases hr
  | hollow j kind hbind =>
    have hr := larger j
    rw [hbind] at hr
    cases hr

/-- Binding fails by a check, because there is nothing to bind, or as the binder does. -/
theorem Binds.fails (h : host.Binds d f b) (hr : perform host n (.bind d f) w = (.fault err, w')) :
    err.isCheck = true ∨ (∃ kind, b = .hollow kind ∧ err = .unsupported "flat_map" kind) ∨
      ∃ v, b = .calls v ∧ perform host n (.call f [v]) w = (.fault err, w') := by
  have larger : ∀ j, perform host (n + j) (.bind d f) w = (.fault err, w') := fun j =>
    (perform_below hs (Nat.le_add_right n j) _ w (by simp [hr])).trans hr
  cases h with
  | @calls v j finish hfinish hbind =>
    have hr := larger j
    rw [hbind, Run.bind_eq_fault] at hr
    rcases hr with hcall | ⟨a, w₁, -, ha⟩
    · exact .inr (.inr ⟨v, rfl, hcall⟩)
    · have hpass := hfinish a
      cases hx : finish a with
      | ok r' =>
        rw [hx] at ha
        cases ha
      | error err' =>
        rw [hx] at ha hpass
        cases ha
        exact .inl hpass
  | rests j x hx hbind =>
    have hr := larger j
    rw [hbind] at hr
    cases x with
    | ok r' => cases hr
    | error err' =>
      cases hr
      exact .inl hx
  | hollow j kind hbind =>
    have hr := larger j
    rw [hbind] at hr
    cases hr
    exact .inr (.inl ⟨kind, rfl, rfl⟩)

/-- Where binding ends, the call of its binder does. -/
theorem Binds.call_ends {v : Datum F P} (h : host.Binds d f (.calls v))
    (hend : (perform host n (.bind d f) w).1 ≠ .unfinished) :
    (perform host n (.call f [v]) w).1 ≠ .unfinished := by
  intro hcall
  cases h with
  | @calls _ j finish hfinish hbind =>
    have hlarger := perform_below hs (Nat.le_add_right n j) _ w hend
    apply hend
    rw [← hlarger, hbind]
    rcases hw : perform host n (.call f [v]) w with ⟨out, w₁⟩
    rw [hw] at hcall
    cases hcall
    rw [Run.bind_unfinished hw]

omit hs in
/-- Where the call of its binder ends, or there is none, binding ends. -/
theorem Binds.ends (h : host.Binds d f b)
    (hcall : ∀ v, b = .calls v → ∃ n, (perform host n (.call f [v]) w).1 ≠ .unfinished) :
    ∃ n, (perform host n (.bind d f) w).1 ≠ .unfinished := by
  cases h with
  | @calls v j finish hfinish hbind =>
    obtain ⟨n, hn⟩ := hcall v rfl
    refine ⟨n + j, ?_⟩
    rw [hbind]
    rcases hw : perform host n (.call f [v]) w with ⟨a | err | _, w₁⟩
    · rw [Run.bind_done hw]
      exact Run.ofExcept_ends _ _
    · simp [Run.bind_fault hw]
    · rw [hw] at hn
      exact absurd rfl hn
  | rests j x hx hbind => exact ⟨0 + j, by rw [hbind]; exact Run.ofExcept_ends x w⟩
  | hollow j kind hbind => exact ⟨0 + j, by rw [hbind]; simp⟩

end Steady

end Host

end EffectCalculus
