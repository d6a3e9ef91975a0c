import EffectCalculus.Run
import Mathlib.Order.Basic

/-!
# Runs without a bound

A family of runs, one for each bound, of which a larger bound never changes what has ended, stands
for one run without a bound. Where no bound is enough, that run has no end.

* `Run.Settles`, `Run.Agree`: how a family ends, and that two end together and in the same way;
* `Unbounded`: runs without a bound, ordered by how often they end;
* `Run.result`: the end of one run; sequencing is kept (`Run.result_bind`);
* `Run.unbounded`: what a family comes to, the least that is above all its members;
  `Run.unbounded_bind`: **sequencing is kept in the limit**;
* `Run.settles_unique`: a family ends in one way only;
* `Run.agree_iff`: two families agree exactly if they come to the same;
* `Unbounded.Ensures`: a property of all results;
* `Unbounded.ended`: the ends seen through a function that may blur them.
-/

namespace EffectCalculus

variable {ε σ α β : Type}

namespace Run

/-- With a large enough bound, `f` goes from the world `w` to the world `w'` and ends as `out`. -/
def Settles (f : Nat → Run ε σ α) (w : σ) (out : Outcome ε α) (w' : σ) : Prop :=
  out ≠ .unfinished ∧ ∃ n, f n w = (out, w')

/-- From every world both end together, in the same way and in the same world. -/
def Agree (f g : Nat → Run ε σ α) : Prop :=
  ∀ w out w', Settles f w out w' ↔ Settles g w out w'

/-- A larger bound changes nothing about what has ended. -/
def Rising (f : Nat → Run ε σ α) : Prop := ∀ ⦃m n⦄, m ≤ n → Below (f m) (f n)

end Run

/-- Runs without a bound: a result or a fault with the world that is left, or no end at all. -/
def Unbounded (ε σ : Type) : Type → Type := ExceptT ε (StateT σ Option)

namespace Unbounded

instance : Monad (Unbounded ε σ) := inferInstanceAs (Monad (ExceptT ε (StateT σ Option)))

instance : LawfulMonad (Unbounded ε σ) :=
  inferInstanceAs (LawfulMonad (ExceptT ε (StateT σ Option)))

def fault (e : ε) : Unbounded ε σ α := fun w => some (.error e, w)

theorem pure_apply (a : α) (w : σ) : (pure a : Unbounded ε σ α) w = some (.ok a, w) := rfl

theorem fault_apply (e : ε) (w : σ) : (fault e : Unbounded ε σ α) w = some (.error e, w) := rfl

theorem bind_apply (m : Unbounded ε σ α) (k : α → Unbounded ε σ β) (w : σ) :
    (m >>= k) w = (m w).bind fun
      | (.ok a, w') => k a w'
      | (.error e, w') => some (.error e, w') := by
  show (m w).bind _ = (m w).bind _
  congr 1
  funext p
  obtain ⟨r, w'⟩ := p
  cases r <;> rfl

@[simp] theorem fault_bind (e : ε) (k : α → Unbounded ε σ β) : fault e >>= k = fault e := rfl

/-! ## The order -/

/-- Wherever the first ends, the second ends in the same way. -/
instance : PartialOrder (Unbounded ε σ α) where
  le m m' := ∀ w r, m w = some r → m' w = some r
  le_refl m w r h := h
  le_trans m₁ m₂ m₃ h₁ h₂ w r h := h₂ w r (h₁ w r h)
  le_antisymm m m' h h' := by
    funext w
    cases hm : m w with
    | some r => exact (h w r hm).symm
    | none =>
      cases hm' : m' w with
      | none => rfl
      | some r => exact absurd (h' w r hm') (by simp [hm])

theorem bind_le_bind {m m' : Unbounded ε σ α} {k k' : α → Unbounded ε σ β} (hm : m ≤ m')
    (hk : ∀ a, k a ≤ k' a) : m >>= k ≤ m' >>= k' := by
  intro w r h
  rw [bind_apply] at h ⊢
  obtain ⟨⟨a, w'⟩, hw, h⟩ := Option.bind_eq_some_iff.mp h
  rw [hm w _ hw, Option.bind_some]
  cases a with
  | ok a => exact hk a w' r h
  | error e => exact h

/-! ## Results -/

/-- Every result of `m` has the property `Q`. -/
def Ensures (m : Unbounded ε σ α) (Q : α → Prop) : Prop :=
  ∀ w a w', m w = some (.ok a, w') → Q a

namespace Ensures

variable {m : Unbounded ε σ α} {k : α → Unbounded ε σ β} {Q : α → Prop} {S : β → Prop}

theorem pure {a : α} (h : Q a) : Ensures (Pure.pure a : Unbounded ε σ α) Q := by
  intro w b w' hb
  cases hb
  exact h

theorem of_pure [Nonempty σ] {a : α} (h : Ensures (Pure.pure a : Unbounded ε σ α) Q) : Q a := by
  obtain ⟨w⟩ := ‹Nonempty σ›
  exact h w a w rfl

theorem fault (e : ε) : Ensures (Unbounded.fault e : Unbounded ε σ α) Q := by
  intro w b w' hb
  cases hb

theorem bind (hm : m.Ensures Q) (hk : ∀ a, Q a → (k a).Ensures S) : Ensures (m >>= k) S := by
  intro w b w' h
  rw [bind_apply] at h
  obtain ⟨⟨a, w₁⟩, hw, h⟩ := Option.bind_eq_some_iff.mp h
  cases a with
  | ok a => exact hk a (hm w a w₁ hw) w₁ b w' h
  | error e => cases h

theorem of_le {m' : Unbounded ε σ α} (h : m'.Ensures Q) (hle : m ≤ m') : m.Ensures Q :=
  fun w a w' ha => h w a w' (hle w _ ha)

theorem bind_le_bind {m' : Unbounded ε σ α} {k' : α → Unbounded ε σ β} (hm : m.Ensures Q)
    (hle : m ≤ m') (hk : ∀ a, Q a → k a ≤ k' a) : m >>= k ≤ m' >>= k' := by
  intro w r h
  rw [bind_apply] at h ⊢
  obtain ⟨⟨a, w'⟩, hw, h⟩ := Option.bind_eq_some_iff.mp h
  rw [hle w _ hw, Option.bind_some]
  cases a with
  | ok a => exact hk a (hm w a w' hw) w' r h
  | error e => exact h

/-- What follows `m` matters only on its results. -/
theorem bind_congr {k' : α → Unbounded ε σ β} (hm : m.Ensures Q)
    (hk : ∀ a, Q a → k a = k' a) : m >>= k = m >>= k' := by
  funext w
  rw [bind_apply, bind_apply]
  cases hw : m w with
  | none => rfl
  | some p =>
    obtain ⟨a, w'⟩ := p
    cases a with
    | ok a => simp only [Option.bind_some, hk a (hm w a w' hw)]
    | error e => rfl

end Ensures

/-! ## Ends -/

/-- The run with its ends, results and faults, mapped by `f`. -/
def ended (f : Except ε α → Except ε β) (m : Unbounded ε σ α) : Unbounded ε σ β :=
  fun w => (m w).map (Prod.map f id)

theorem ended_apply {f : Except ε α → Except ε β} {m : Unbounded ε σ α} {w : σ}
    {r : Except ε β × σ} :
    m.ended f w = some r ↔ ∃ a w', m w = some (a, w') ∧ r = (f a, w') := by
  unfold ended
  cases m w with
  | none => simp
  | some p =>
    obtain ⟨a, w'⟩ := p
    constructor
    · intro h
      cases h
      exact ⟨a, w', rfl, rfl⟩
    · rintro ⟨_, _, h, rfl⟩
      cases h
      rfl

theorem ended_ended {γ : Type} (g : Except ε β → Except ε γ) (f : Except ε α → Except ε β)
    (m : Unbounded ε σ α) : (m.ended f).ended g = m.ended (g ∘ f) := by
  funext w
  unfold ended
  cases m w <;> rfl

theorem ended_le {m m' : Unbounded ε σ α} (h : m ≤ m') (f : Except ε α → Except ε β) :
    m.ended f ≤ m'.ended f := by
  intro w r hr
  obtain ⟨a, w', hm, rfl⟩ := ended_apply.mp hr
  exact ended_apply.mpr ⟨a, w', h w _ hm, rfl⟩

/-- What comes after a fault does not matter, so it is enough that the ends of what follows agree. -/
theorem ended_bind_le {γ : Type} {f : Except ε β → Except ε γ} {m m' : Unbounded ε σ α}
    {k k' : α → Unbounded ε σ β} (hm : m ≤ m') (hk : ∀ a, (k a).ended f ≤ (k' a).ended f) :
    (m >>= k).ended f ≤ (m' >>= k').ended f := by
  intro w r hr
  obtain ⟨b, w', hb, rfl⟩ := ended_apply.mp hr
  rw [bind_apply] at hb
  obtain ⟨⟨a, w₁⟩, ha, hb⟩ := Option.bind_eq_some_iff.mp hb
  have ha' := hm w _ ha
  cases a with
  | ok a =>
    obtain ⟨b', w₂, hb', heq⟩ := ended_apply.mp (hk a w₁ _ (ended_apply.mpr ⟨b, w', hb, rfl⟩))
    refine ended_apply.mpr ⟨b', w₂, ?_, heq⟩
    rw [bind_apply, ha']
    exact hb'
  | error e =>
    refine ended_apply.mpr ⟨b, w', ?_, rfl⟩
    rw [bind_apply, ha']
    exact hb

theorem ended_bind_congr {γ : Type} {f : Except ε β → Except ε γ} {m : Unbounded ε σ α}
    {k k' : α → Unbounded ε σ β} (hk : ∀ a, (k a).ended f = (k' a).ended f) :
    (m >>= k).ended f = (m >>= k').ended f :=
  le_antisymm (ended_bind_le (le_refl m) fun a => le_of_eq (hk a))
    (ended_bind_le (le_refl m) fun a => le_of_eq (hk a).symm)

/-- A last step that is not seen in the ends can be left out. -/
theorem ended_bind_of_pure {γ : Type} {f : Except ε α → Except ε γ} (m : Unbounded ε σ α)
    {k : α → Unbounded ε σ α} (hk : ∀ a, (k a).ended f = (pure a : Unbounded ε σ α).ended f) :
    (m >>= k).ended f = m.ended f := by
  rw [ended_bind_congr hk, bind_pure]

end Unbounded

namespace Run

open Unbounded

/-! ## The end of one run -/

/-- The end of a run, if it has one within its bound. -/
def result (m : Run ε σ α) : Unbounded ε σ α := fun w =>
  match m w with
  | (.done a, w') => some (.ok a, w')
  | (.fault e, w') => some (.error e, w')
  | (.unfinished, _) => none

@[simp] theorem result_pure (a : α) : (pure a : Run ε σ α).result = pure a := rfl

@[simp] theorem result_fault (e : ε) : (fault e : Run ε σ α).result = Unbounded.fault e := rfl

theorem result_apply_ok {m : Run ε σ α} {w w' : σ} {a : α} :
    m.result w = some (.ok a, w') ↔ m w = (.done a, w') := by
  unfold result
  split <;> simp_all

theorem result_apply_error {m : Run ε σ α} {w w' : σ} {e : ε} :
    m.result w = some (.error e, w') ↔ m w = (.fault e, w') := by
  unfold result
  split <;> simp_all

theorem result_bind (m : Run ε σ α) (k : α → Run ε σ β) :
    (m >>= k).result = m.result >>= fun a => (k a).result := by
  funext w
  rw [bind_apply]
  rcases h : m w with ⟨a | e | _, w'⟩
  · simp [result, bind_done h, h]
  · simp [result, bind_fault h, h]
  · simp [result, bind_unfinished h, h]

theorem Below.result_le {m m' : Run ε σ α} (h : Below m m') : m.result ≤ m'.result := by
  intro w r hr
  have hw : (m w).1 ≠ .unfinished := by
    intro hu
    simp only [result] at hr
    split at hr <;> simp_all
  unfold result at hr ⊢
  rw [h w hw]
  exact hr

/-! ## The limit -/

open Classical in
/-- What the family `f` comes to as its bound grows. -/
noncomputable def unbounded (f : Nat → Run ε σ α) : Unbounded ε σ α := fun w =>
  if h : ∃ r n, (f n).result w = some r then some h.choose else none

variable {f : Nat → Run ε σ α}

theorem exists_of_unbounded {w : σ} {r : Except ε α × σ} (h : unbounded f w = some r) :
    ∃ n, (f n).result w = some r := by
  unfold unbounded at h
  split at h
  · next hr =>
    cases h
    exact hr.choose_spec
  · cases h

theorem unbounded_le {u : Unbounded ε σ α} (h : ∀ n, (f n).result ≤ u) : unbounded f ≤ u := by
  intro w r hr
  obtain ⟨n, hn⟩ := exists_of_unbounded hr
  exact h n w r hn

theorem unbounded_bind_le {k : α → Unbounded ε σ β} {u : Unbounded ε σ β}
    (h : ∀ n, (f n).result >>= k ≤ u) : unbounded f >>= k ≤ u := by
  intro w r hr
  rw [bind_apply] at hr
  obtain ⟨⟨a, w'⟩, hw, hr⟩ := Option.bind_eq_some_iff.mp hr
  obtain ⟨n, hn⟩ := exists_of_unbounded hw
  refine h n w r ?_
  rw [bind_apply, hn]
  exact hr

theorem unbounded_ensures {Q : α → Prop} (h : ∀ n, (f n).result.Ensures Q) :
    (unbounded f).Ensures Q := by
  intro w a w' ha
  obtain ⟨n, hn⟩ := exists_of_unbounded ha
  exact h n w a w' hn

theorem unbounded_ended_le {g : Except ε α → Except ε β} {u : Unbounded ε σ β}
    (h : ∀ n, (f n).result.ended g ≤ u) : (unbounded f).ended g ≤ u := by
  intro w r hr
  obtain ⟨a, w', ha, rfl⟩ := ended_apply.mp hr
  obtain ⟨n, hn⟩ := exists_of_unbounded ha
  exact h n w _ (ended_apply.mpr ⟨a, w', hn, rfl⟩)

theorem result_le_unbounded (hf : Rising f) (n : Nat) : (f n).result ≤ unbounded f := by
  intro w r hr
  unfold unbounded
  split
  · next h =>
    -- Both ends are kept up to the larger of the two bounds.
    obtain ⟨m, hm⟩ := h.choose_spec
    have h₁ := (hf (Nat.le_max_left m n)).result_le w _ hm
    have h₂ := (hf (Nat.le_max_right m n)).result_le w _ hr
    rw [h₁] at h₂
    exact h₂
  · next h => exact absurd ⟨r, n, hr⟩ h

theorem unbounded_const (m : Run ε σ α) : unbounded (fun _ => m) = m.result :=
  le_antisymm (unbounded_le fun _ => le_refl _) (result_le_unbounded (fun _ _ _ => Below.refl m) 0)

theorem unbounded_succ (hf : Rising f) : unbounded (fun n => f (n + 1)) = unbounded f := by
  refine le_antisymm (unbounded_le fun n => result_le_unbounded hf (n + 1)) ?_
  refine unbounded_le fun n => le_trans (hf (Nat.le_succ n)).result_le ?_
  exact result_le_unbounded (fun _ _ h => hf (Nat.succ_le_succ h)) n

theorem Rising.bind {g : Nat → α → Run ε σ β} (hf : Rising f) (hg : ∀ a, Rising fun n => g n a) :
    Rising fun n => f n >>= g n :=
  fun _ _ h => (hf h).bind fun a => hg a h

/-- **Sequencing is kept in the limit.** -/
theorem unbounded_bind {g : Nat → α → Run ε σ β} (hf : Rising f)
    (hg : ∀ a, Rising fun n => g n a) :
    unbounded (fun n => f n >>= g n) = unbounded f >>= fun a => unbounded fun n => g n a := by
  apply le_antisymm
  · refine unbounded_le fun n => ?_
    rw [result_bind]
    exact bind_le_bind (result_le_unbounded hf n) fun a => result_le_unbounded (hg a) n
  · intro w r h
    rw [bind_apply] at h
    obtain ⟨⟨a, w'⟩, hw, h⟩ := Option.bind_eq_some_iff.mp h
    obtain ⟨m, hm⟩ := exists_of_unbounded hw
    cases a with
    | ok a =>
      obtain ⟨n, hn⟩ := exists_of_unbounded h
      refine result_le_unbounded (hf.bind hg) (max m n) w r ?_
      rw [result_bind, bind_apply, (hf (Nat.le_max_left m n)).result_le w _ hm]
      exact (hg a (Nat.le_max_right m n)).result_le w' r hn
    | error e =>
      refine result_le_unbounded (hf.bind hg) m w r ?_
      rw [result_bind, bind_apply, hm]
      exact h

/-! ## Agreement -/

/-- A family ends in one way only. -/
theorem settles_unique (hf : Rising f) {w w₁ w₂ : σ} {out out' : Outcome ε α}
    (h : Settles f w out w₁) (h' : Settles f w out' w₂) : out = out' ∧ w₁ = w₂ := by
  obtain ⟨hout, m, hm⟩ := h
  obtain ⟨hout', n, hn⟩ := h'
  have hm' := hf (Nat.le_max_left m n) w (by rw [hm]; exact hout)
  have hn' := hf (Nat.le_max_right m n) w (by rw [hn]; exact hout')
  rw [hm', hm, hn] at hn'
  exact Prod.mk.inj hn'

theorem settles_done {w w' : σ} {a : α} (hf : Rising f) :
    Settles f w (.done a) w' ↔ unbounded f w = some (.ok a, w') := by
  constructor
  · rintro ⟨-, n, hn⟩
    exact result_le_unbounded hf n w _ (result_apply_ok.mpr hn)
  · intro h
    obtain ⟨n, hn⟩ := exists_of_unbounded h
    exact ⟨by simp, n, result_apply_ok.mp hn⟩

theorem settles_fault {w w' : σ} {e : ε} (hf : Rising f) :
    Settles f w (.fault e) w' ↔ unbounded f w = some (.error e, w') := by
  constructor
  · rintro ⟨-, n, hn⟩
    exact result_le_unbounded hf n w _ (result_apply_error.mpr hn)
  · intro h
    obtain ⟨n, hn⟩ := exists_of_unbounded h
    exact ⟨by simp, n, result_apply_error.mp hn⟩

theorem agree_iff {g : Nat → Run ε σ α} (hf : Rising f) (hg : Rising g) :
    Agree f g ↔ unbounded f = unbounded g := by
  constructor
  · intro h
    funext w
    refine Option.ext fun ⟨r, w'⟩ => ?_
    cases r with
    | ok a => exact (settles_done hf).symm.trans ((h w _ w').trans (settles_done hg))
    | error e => exact (settles_fault hf).symm.trans ((h w _ w').trans (settles_fault hg))
  · intro h w out w'
    cases out with
    | done a => rw [settles_done hf, settles_done hg, h]
    | fault e => rw [settles_fault hf, settles_fault hg, h]
    | unfinished => exact ⟨fun h => absurd rfl h.1, fun h => absurd rfl h.1⟩

end Run

end EffectCalculus
