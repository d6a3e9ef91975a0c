import EffectCalculus.Proofs.Run.Unbounded

/-!
# Following a run up to an alarm

A guarded run does what another one does, until something happens that it is to report; then it ends
with an alarm. The other run goes on from there. What it does then is done by a third run that is
known, and followed by checks that its results cannot pass.

* `Run.Becomes`: from some world and some bound on, a family of runs does what another does;
* `Outcome.Doomed`: the end of the other run after the alarm, against that of the known run;
* `Run.Tracks`: a family and the guarded run that goes in step with it until the alarm, with a rule
  for each way to make a run (`Tracks.bind`, `Tracked.raised`);
* `Tracks.settles_done_iff`: if nothing comes out after the alarm, **both end with the same
  results**;
* `Tracks.settles_of_alarm`: after the alarm, the other run fails as the known run does or by a
  check, and ends exactly if the known run does.
-/

namespace EffectCalculus

/-- A run that does what the known run with the end `x` does, and then something else, ends as `y`:
faults stay what they are, and a result gives way to one with the property `Q`, or to a fault of the
kind `C`. -/
inductive Outcome.Doomed {ε σ α β : Type} (C : ε → Prop) (Q : α → Prop) :
    Outcome ε β × σ → Outcome ε α × σ → Prop
  | fault (err : ε) (w : σ) : Doomed C Q (.fault err, w) (.fault err, w)
  | unfinished (w : σ) : Doomed C Q (.unfinished, w) (.unfinished, w)
  | done (b : β) {a : α} (w : σ) (h : Q a) : Doomed C Q (.done b, w) (.done a, w)
  | failed (b : β) {err : ε} (w : σ) (h : C err) : Doomed C Q (.done b, w) (.fault err, w)

namespace Run

variable {ε σ α β γ δ κ : Type}

/-! ## From some world on -/

/-- From the bound `n` on, `r` does from the world `w` what `q` does from the world `w'`. -/
def Becomes (n : Nat) (r : Nat → Run ε σ α) (w : σ) (q : Nat → Run ε σ α) (w' : σ) : Prop :=
  ∀ k, n ≤ k → r k w = q k w'

namespace Becomes

variable {n : Nat} {r q s : Nat → Run ε σ α} {w w' w'' : σ}

theorem refl (n : Nat) (r : Nat → Run ε σ α) (w : σ) : Becomes n r w r w := fun _ _ => rfl

theorem trans (h : Becomes n r w q w') (h' : Becomes n q w' s w'') : Becomes n r w s w'' :=
  fun k hk => (h k hk).trans (h' k hk)

theorem bind (h : Becomes n r w q w') (k : Nat → α → Run ε σ β) :
    Becomes n (fun i => r i >>= k i) w (fun i => q i >>= k i) w' := by
  intro i hi
  show Run.bind (r i) (k i) w = Run.bind (q i) (k i) w'
  simp only [Run.bind, h i hi]

/-- What happens within a bound more. -/
theorem succ (h : Becomes n (fun k => r (k + 1)) w q w') :
    Becomes (n + 1) r w (fun k => q (k - 1)) w' := by
  intro k hk
  obtain ⟨j, rfl⟩ : ∃ j, k = j + 1 := ⟨k - 1, by omega⟩
  exact h j (by omega)

theorem of_done (hr : Rising r) {a : α} (h : r n w = (.done a, w')) :
    Becomes n r w (fun _ => pure a) w' :=
  fun k hk => (hr hk w (by rw [h]; simp)).trans h

theorem of_fault (hr : Rising r) {err : ε} (h : r n w = (.fault err, w')) :
    Becomes n r w (fun _ => Run.fault err) w' :=
  fun k hk => (hr hk w (by rw [h]; simp)).trans h

theorem settles_done {a : α} (h : Becomes n r w (fun _ => pure a) w') :
    Settles r w (.done a) w' := ⟨by simp, n, h n (Nat.le_refl n)⟩

theorem settles_fault {err : ε} (h : Becomes n r w (fun _ => Run.fault err) w') :
    Settles r w (.fault err) w' := ⟨by simp, n, h n (Nat.le_refl n)⟩

end Becomes

/-! ## After the alarm -/

section Doomed

open Outcome

variable {C : ε → Prop} {Q : α → Prop} {x : Outcome ε κ × σ} {m : Run ε σ α} {w : σ}

theorem doomed_self {m : Run ε σ α} (hQ : ∀ a w', m w = (.done a, w') → Q a) :
    Doomed C Q (m w) (m w) := by
  rcases h : m w with ⟨a | err | _, w'⟩
  · exact .done a w' (hQ a w' h)
  · exact .fault err w'
  · exact .unfinished w'

theorem doomed_mono {Q' : α → Prop} {y : Outcome ε α × σ} (h : Doomed C Q x y)
    (hQ : ∀ a, Q a → Q' a) : Doomed C Q' x y := by
  cases h with
  | fault err w => exact .fault err w
  | unfinished w => exact .unfinished w
  | done b w ha => exact .done b w (hQ _ ha)
  | failed b w herr => exact .failed b w herr

/-- What follows only has to refuse the results that are left. -/
theorem doomed_bind {S : γ → Prop} {k : α → Run ε σ γ} (h : Doomed C Q x (m w))
    (hk : ∀ a, Q a → ∃ err, C err ∧ k a = Run.fault err) : Doomed C S x ((m >>= k) w) := by
  generalize hy : m w = y at h
  cases h with
  | fault err w' =>
    rw [bind_fault hy]
    exact .fault err w'
  | unfinished w' =>
    rw [bind_unfinished hy]
    exact .unfinished w'
  | done b w' ha =>
    obtain ⟨err, herr, hfault⟩ := hk _ ha
    rw [bind_done hy, hfault]
    exact .failed b w' herr
  | failed b w' herr =>
    rw [bind_fault hy]
    exact .failed b w' herr

end Doomed

/-! ## Up to the alarm -/

/-- From the world `w`, the guarded run `m` and the family at the bound `n` end in the same way,
with related results; or else `m` ends with the alarm, and from then on the family does what some
known family does, followed by checks. `D` says which family that may be, given the world in which
the alarm is raised. -/
inductive Tracked (alarm : ε) (C : ε → Prop) (D : σ → (Nat → Run ε σ κ) → Prop) (R : α → β → Prop)
    (Q : α → Prop) (n : Nat) (r : Nat → Run ε σ α) (m : Run ε σ β) (w : σ) : Prop
  | done {a : α} {b : β} {w' : σ} (hab : R a b) (hm : m w = (.done b, w'))
    (hr : Becomes n r w (fun _ => pure a) w') : Tracked alarm C D R Q n r m w
  | fault {err : ε} {w' : σ} (hm : m w = (.fault err, w'))
    (hr : Becomes n r w (fun _ => Run.fault err) w') : Tracked alarm C D R Q n r m w
  | unfinished {w' w₁ : σ} (hm : m w = (.unfinished, w')) (hr : r n w = (.unfinished, w₁)) :
    Tracked alarm C D R Q n r m w
  | alarmed {w' : σ} {known : Nat → Run ε σ κ} (j : Nat) (hD : D w' known)
    (hm : m w = (.fault alarm, w'))
    (hr : ∀ k, n ≤ k → Outcome.Doomed C Q (known (k - j) w') (r k w)) :
    Tracked alarm C D R Q n r m w

/-- The guarded run `m` goes in step with the family at the bound `n`. -/
def Tracks (alarm : ε) (C : ε → Prop) (D : σ → (Nat → Run ε σ κ) → Prop) (R : α → β → Prop)
    (Q : α → Prop) (n : Nat) (r : Nat → Run ε σ α) (m : Run ε σ β) : Prop :=
  ∀ w, Tracked alarm C D R Q n r m w

section Rules

variable {alarm : ε} {C : ε → Prop} {D : σ → (Nat → Run ε σ κ) → Prop} {R : α → β → Prop}
  {Q : α → Prop} {n : Nat} {r : Nat → Run ε σ α} {m : Run ε σ β}

/-- The alarm is raised, and what the family does from there on is known. -/
theorem Tracked.raised {known : Nat → Run ε σ α} {D : σ → (Nat → Run ε σ α) → Prop} {w : σ}
    (hD : D w known) (hQ : ∀ k a w', known k w = (.done a, w') → Q a) :
    Tracked alarm C D R Q n known (Run.fault alarm : Run ε σ β) w :=
  .alarmed 0 hD rfl fun k _ => doomed_self (hQ k)

theorem Tracked.bind {S : γ → δ → Prop} {Q' : γ → Prop} {k : Nat → α → Run ε σ γ}
    {k' : β → Run ε σ δ} {w : σ} (h : Tracked alarm C D R Q n r m w)
    (hk : ∀ a b w', m w = (.done b, w') → R a b →
      Tracked alarm C D S Q' n (fun i => k i a) (k' b) w')
    (hdoom : ∀ a, Q a → ∃ err, C err ∧ ∀ i, k i a = Run.fault err) :
    Tracked alarm C D S Q' n (fun i => r i >>= k i) (m >>= k') w := by
  cases h with
  | @done a b w' hab hm hr =>
    have hguard : (m >>= k') w = k' b w' := bind_done hm k'
    have hfirst : Becomes n (fun i => r i >>= k i) w (fun i => k i a) w' := hr.bind k
    cases hk a b w' hm hab with
    | done hcd hk hc => exact .done hcd (hguard.trans hk) (hfirst.trans hc)
    | fault hk hc => exact .fault (hguard.trans hk) (hfirst.trans hc)
    | unfinished hk hc =>
      exact .unfinished (hguard.trans hk) ((hfirst n (Nat.le_refl n)).trans hc)
    | alarmed j hD hk hc =>
      refine .alarmed j hD (hguard.trans hk) fun i hi => ?_
      have hfamily : (r i >>= k i) w = k i a w' := hfirst i hi
      rw [hfamily]
      exact hc i hi
  | fault hm hr => exact .fault (bind_fault hm k') (hr.bind k)
  | unfinished hm hr => exact .unfinished (bind_unfinished hm k') (bind_unfinished hr (k n))
  | alarmed j hD hm hr =>
    refine .alarmed j hD (bind_fault hm k') fun i hi => doomed_bind (hr i hi) fun a ha => ?_
    obtain ⟨err, herr, hfault⟩ := hdoom a ha
    exact ⟨err, herr, hfault i⟩

namespace Tracks

theorem pure {a : α} {b : β} (h : R a b) :
    Tracks alarm C D R Q n (fun _ => (Pure.pure a : Run ε σ α)) (Pure.pure b) :=
  fun w => .done h rfl (.refl n _ w)

theorem fault (err : ε) :
    Tracks alarm C D R Q n (fun _ => (Run.fault err : Run ε σ α)) (Run.fault err) :=
  fun w => .fault rfl (.refl n _ w)

theorem unfinished (h : r n = Run.unfinished) :
    Tracks alarm C D R Q n r (Run.unfinished : Run ε σ β) :=
  fun w => .unfinished rfl (congrFun h w)

/-- A rising family is in step with each of its runs. -/
theorem of_rising (hr : Rising r) (n : Nat) : Tracks alarm C D Eq Q n r (r n) := by
  intro w
  rcases h : r n w with ⟨a | err | _, w'⟩
  · exact .done rfl h (.of_done hr h)
  · exact .fault h (.of_fault hr h)
  · exact .unfinished h h

theorem bind {S : γ → δ → Prop} {Q' : γ → Prop} {k : Nat → α → Run ε σ γ} {k' : β → Run ε σ δ}
    (hm : Tracks alarm C D R Q n r m)
    (hk : ∀ a b, R a b → Tracks alarm C D S Q' n (fun i => k i a) (k' b))
    (hdoom : ∀ a, Q a → ∃ err, C err ∧ ∀ i, k i a = Run.fault err) :
    Tracks alarm C D S Q' n (fun i => r i >>= k i) (m >>= k') :=
  fun w => (hm w).bind (fun a b w' _ hab => hk a b hab w') hdoom

theorem mono {S : α → β → Prop} {Q' : α → Prop} (h : Tracks alarm C D R Q n r m)
    (hS : ∀ a b, R a b → S a b) (hQ : ∀ a, Q a → Q' a) : Tracks alarm C D S Q' n r m := by
  intro w
  cases h w with
  | done hab hm hr => exact .done (hS _ _ hab) hm hr
  | fault hm hr => exact .fault hm hr
  | unfinished hm hr => exact .unfinished hm hr
  | alarmed j hD hm hr => exact .alarmed j hD hm fun k hk => doomed_mono (hr k hk) hQ

theorem succ (h : Tracks alarm C D R Q n (fun k => r (k + 1)) m) :
    Tracks alarm C D R Q (n + 1) r m := by
  intro w
  cases h w with
  | done hab hm hr => exact .done hab hm hr.succ
  | fault hm hr => exact .fault hm hr.succ
  | unfinished hm hr => exact .unfinished hm hr
  | @alarmed w' known j hD hm hr =>
    refine .alarmed (j + 1) hD hm fun k hk => ?_
    obtain ⟨i, rfl⟩ : ∃ i, k = i + 1 := ⟨k - 1, by omega⟩
    have hbound : i + 1 - (j + 1) = i - j := by omega
    rw [hbound]
    exact hr i (by omega)

end Tracks

end Rules

/-! ## Families in step -/

namespace Tracks

variable {alarm : ε} {C : ε → Prop} {D : σ → (Nat → Run ε σ κ) → Prop} {r g : Nat → Run ε σ α}
  (h : ∀ n, Tracks alarm C D Eq (fun _ => False) n r (g n))

include h

/-- If nothing comes out after the alarm, both families end with the same results. -/
theorem settles_done_iff {w w' : σ} {a : α} :
    Settles r w (.done a) w' ↔ Settles g w (.done a) w' := by
  constructor
  · rintro ⟨-, n, hn⟩
    cases h n w with
    | done hab hm hr =>
      cases hn.symm.trans (hr n (Nat.le_refl n))
      exact ⟨by simp, n, hab ▸ hm⟩
    | fault _ hr => cases hn.symm.trans (hr n (Nat.le_refl n))
    | unfinished _ hr => cases hn.symm.trans hr
    | @alarmed _ known j _ hm hr =>
      have hdoomed := hr n (Nat.le_refl n)
      rw [hn] at hdoomed
      generalize known (n - j) _ = x at hdoomed
      cases hdoomed with
      | done _ _ ha => exact ha.elim
  · rintro ⟨-, n, hn⟩
    cases h n w with
    | done hab hm hr =>
      cases hn.symm.trans hm
      exact hab ▸ hr.settles_done
    | fault hm _ | unfinished hm _ | alarmed _ _ hm _ => cases hn.symm.trans hm

/-- Apart from the alarm, the guarded family has the faults of the other. -/
theorem settles_fault {w w' : σ} {err : ε} (herr : err ≠ alarm)
    (hg : Settles g w (.fault err) w') : Settles r w (.fault err) w' := by
  obtain ⟨-, n, hn⟩ := hg
  cases h n w with
  | fault hm hr =>
    cases hn.symm.trans hm
    exact hr.settles_fault
  | alarmed _ _ hm _ =>
    cases hn.symm.trans hm
    exact absurd rfl herr
  | done _ hm _ | unfinished hm _ => cases hn.symm.trans hm

/-- If the guarded family ends with the alarm, the other does so as well, or it goes on as some
known family does from there. Then it ends exactly if that does, and only with faults: those of the
known family, and failed checks. -/
theorem settles_of_alarm (hr : Rising r) (hD : ∀ w known, D w known → Rising known) {w w' : σ}
    (hg : Settles g w (.fault alarm) w') :
    Settles r w (.fault alarm) w' ∨ ∃ known, D w' known ∧
      (∀ out w₁, Settles r w out w₁ → ∃ err, out = .fault err ∧
        (C err ∨ Settles known w' (.fault err) w₁)) ∧
      ((∃ out w₁, Settles r w out w₁) ↔ ∃ n, (known n w').1 ≠ .unfinished) := by
  obtain ⟨-, n, hn⟩ := hg
  cases h n w with
  | fault hm hb =>
    cases hn.symm.trans hm
    exact .inl hb.settles_fault
  | @alarmed _ known j hknown hm hb =>
    cases hn.symm.trans hm
    right
    -- An end of `r` is still there at a bound from which on the known family stands behind it.
    have later : ∀ out w₁, Settles r w out w₁ →
        ∃ k, out ≠ .unfinished ∧ Outcome.Doomed C (fun _ => False) (known k w') (out, w₁) := by
      rintro out w₁ ⟨hout, k, hk⟩
      have hlarge : r (max n k) w = (out, w₁) :=
        (hr (Nat.le_max_right n k) w (by rw [hk]; exact hout)).trans hk
      have hdoomed := hb (max n k) (Nat.le_max_left n k)
      rw [hlarge] at hdoomed
      exact ⟨_, hout, hdoomed⟩
    refine ⟨known, hknown, fun out w₁ hout => ?_, ?_, ?_⟩
    · obtain ⟨k, hne, hdoomed⟩ := later out w₁ hout
      generalize hx : known k w' = x at hdoomed
      cases hdoomed with
      | fault err => exact ⟨err, rfl, .inr ⟨by simp, k, hx⟩⟩
      | unfinished => exact absurd rfl hne
      | done _ _ ha => exact ha.elim
      | failed _ _ herr => exact ⟨_, rfl, .inl herr⟩
    · rintro ⟨out, w₁, hout⟩
      obtain ⟨k, hne, hdoomed⟩ := later out w₁ hout
      refine ⟨k, fun hunfinished => hne ?_⟩
      generalize known k w' = x at hdoomed hunfinished
      cases hdoomed with
      | unfinished => rfl
      | _ => cases hunfinished
    · rintro ⟨k, hk⟩
      have hlarge := hD w' known hknown (Nat.le_max_right n k) w' hk
      have hdoomed := hb (max n k + j) (by omega)
      have hbound : max n k + j - j = max n k := by omega
      rw [hbound, hlarge] at hdoomed
      rcases hend : r (max n k + j) w with ⟨out, w₁⟩
      refine ⟨out, w₁, fun hout => hk ?_, _, hend⟩
      rw [hend, hout] at hdoomed
      generalize known k w' = x at hdoomed
      cases hdoomed with
      | unfinished => rfl
  | done _ hm _ | unfinished hm _ => cases hn.symm.trans hm

end Tracks

end Run

end EffectCalculus
