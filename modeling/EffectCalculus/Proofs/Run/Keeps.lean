import EffectCalculus.Run

/-!
# Results and faults

What every result and every fault of a run has in common, whatever the world it starts in. Nothing
is said of a run that does not end within its bound.

* `Run.Keeps`: properties of the results and of the faults of a run, with a rule for each way to
  make a run;
* `Run.Keeps.of_below`: a run within a smaller bound has no other results and no other faults.
-/

namespace EffectCalculus

namespace Run

variable {ε σ α β : Type} {A : ε → Prop} {Q : α → Prop} {R : β → Prop} {m m' : Run ε σ α}

/-- Every fault of `m` has the property `A`, and every result the property `Q`. -/
def Keeps (m : Run ε σ α) (A : ε → Prop) (Q : α → Prop) : Prop :=
  ∀ w w', (∀ e, m w = (.fault e, w') → A e) ∧ ∀ a, m w = (.done a, w') → Q a

namespace Keeps

theorem pure {a : α} (h : Q a) : (Pure.pure a : Run ε σ α).Keeps A Q := by
  intro w w'
  constructor
  · rintro e ⟨⟩
  · rintro b ⟨⟩
    exact h

theorem fault {e : ε} (h : A e) : (Run.fault e : Run ε σ α).Keeps A Q := by
  intro w w'
  constructor
  · rintro e' ⟨⟩
    exact h
  · rintro a ⟨⟩

theorem unfinished : (Run.unfinished : Run ε σ α).Keeps A Q := by
  intro w w'
  constructor
  · rintro e ⟨⟩
  · rintro a ⟨⟩

theorem any (m : Run ε σ α) : m.Keeps (fun _ => True) fun _ => True :=
  fun _ _ => ⟨fun _ _ => trivial, fun _ _ => trivial⟩

theorem mono {Q' : α → Prop} (h : m.Keeps A Q) (hQ : ∀ a, Q a → Q' a) : m.Keeps A Q' :=
  fun w w' => ⟨(h w w').1, fun a ha => hQ a ((h w w').2 a ha)⟩

theorem bind {k : α → Run ε σ β} (hm : m.Keeps A Q) (hk : ∀ a, Q a → (k a).Keeps A R) :
    (m >>= k).Keeps A R := by
  intro w w'
  rcases hw : m w with ⟨a | e | _, w₁⟩
  · rw [Run.bind_done hw]
    exact hk a ((hm w w₁).2 a hw) w₁ w'
  · rw [Run.bind_fault hw]
    constructor
    · rintro e' ⟨⟩
      exact (hm w w').1 e hw
    · rintro b ⟨⟩
  · rw [Run.bind_unfinished hw]
    constructor
    · rintro e ⟨⟩
    · rintro b ⟨⟩

/-- A run that ends less often does so in no other way. -/
theorem of_below (h : m'.Keeps A Q) (hm : Below m m') : m.Keeps A Q := by
  intro w w'
  have hw : ∀ out, out ≠ .unfinished → m w = (out, w') → m' w = (out, w') := by
    intro out hout heq
    rw [hm w (by rw [heq]; exact hout), heq]
  exact ⟨fun e he => (h w w').1 e (hw _ (by simp) he), fun a ha => (h w w').2 a (hw _ (by simp) ha)⟩

end Keeps

end Run

end EffectCalculus
