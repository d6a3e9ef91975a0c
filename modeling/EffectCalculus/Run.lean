/-!
# Runs

A run passes a world along and ends in one of three ways: with a result, with a fault, or not
within its bound. The evaluators use the log as their world, the effect programs whatever world
their callbacks live in.

* `Outcome`, `Run`: how a run ends, and runs themselves.
* `Run.bind_done`, `Run.bind_fault`, `Run.bind_unfinished`: a run goes on exactly after a result;
  `Run.bind_eq_done`, `Run.bind_eq_fault`: the other way around.
* `LawfulMonad (Run ε σ)`: sequencing of runs is associative and has `pure` as its unit.
* `Run.Below`: one run ends as another does wherever that one ends; sequencing keeps it
  (`Run.Below.bind`).
-/

namespace EffectCalculus

/-- The bound on the depth of a run that is used when none is given. -/
def stepBound : Nat := 1099511627776

/-- How a run ends. `unfinished` says that the bound was used up first. -/
inductive Outcome (ε α : Type)
  | done (a : α)
  | fault (e : ε)
  | unfinished
deriving DecidableEq, Repr

/-- An action on a world of type `σ`. What it did to the world before a fault stays done. -/
def Run (ε σ α : Type) : Type := σ → Outcome ε α × σ

namespace Run

variable {ε σ α β : Type}

@[inline] protected def pure (a : α) : Run ε σ α := fun w => (.done a, w)

@[inline] protected def bind (m : Run ε σ α) (k : α → Run ε σ β) : Run ε σ β := fun w =>
  match m w with
  | (.done a, w') => k a w'
  | (.fault e, w') => (.fault e, w')
  | (.unfinished, w') => (.unfinished, w')

@[inline] instance : Monad (Run ε σ) where
  pure := Run.pure
  bind := Run.bind

/-- Ends with the fault `e`. -/
@[inline] def fault (e : ε) : Run ε σ α := fun w => (.fault e, w)

/-- Gives up: the bound is used up. -/
@[inline] def unfinished : Run ε σ α := fun w => (.unfinished, w)

@[inline] def ofExcept : Except ε α → Run ε σ α
  | .ok a => Run.pure a
  | .error e => Run.fault e

/-- Changes the world. -/
@[inline] def modify (f : σ → σ) : Run ε σ Unit := fun w => (.done (), f w)

/-! ## Laws -/

theorem bind_done {m : Run ε σ α} {w w' : σ} {a : α} (h : m w = (.done a, w'))
    (k : α → Run ε σ β) : (m >>= k) w = k a w' := by
  simp [Bind.bind, Run.bind, h]

theorem bind_fault {m : Run ε σ α} {w w' : σ} {e : ε} (h : m w = (.fault e, w'))
    (k : α → Run ε σ β) : (m >>= k) w = (.fault e, w') := by
  simp [Bind.bind, Run.bind, h]

theorem bind_unfinished {m : Run ε σ α} {w w' : σ} (h : m w = (.unfinished, w'))
    (k : α → Run ε σ β) : (m >>= k) w = (.unfinished, w') := by
  simp [Bind.bind, Run.bind, h]

/-- Where the result of a compound run comes from. -/
theorem bind_eq_done {m : Run ε σ α} {k : α → Run ε σ β} {b : β} {w w' : σ} :
    (m >>= k) w = (.done b, w') ↔ ∃ a w₁, m w = (.done a, w₁) ∧ k a w₁ = (.done b, w') := by
  constructor
  · intro h
    rcases hm : m w with ⟨a | e | _, w₁⟩
    · rw [bind_done hm] at h
      exact ⟨a, w₁, rfl, h⟩
    · rw [bind_fault hm] at h
      cases h
    · rw [bind_unfinished hm] at h
      cases h
  · rintro ⟨a, w₁, hm, hk⟩
    rw [bind_done hm, hk]

/-- Where the fault of a compound run comes from. -/
theorem bind_eq_fault {m : Run ε σ α} {k : α → Run ε σ β} {e : ε} {w w' : σ} :
    (m >>= k) w = (.fault e, w') ↔
      m w = (.fault e, w') ∨ ∃ a w₁, m w = (.done a, w₁) ∧ k a w₁ = (.fault e, w') := by
  constructor
  · intro h
    rcases hm : m w with ⟨a | f | _, w₁⟩
    · rw [bind_done hm] at h
      exact .inr ⟨a, w₁, rfl, h⟩
    · rw [bind_fault hm] at h
      cases h
      exact .inl rfl
    · rw [bind_unfinished hm] at h
      cases h
  · rintro (hm | ⟨a, w₁, hm, hk⟩)
    · exact bind_fault hm k
    · rw [bind_done hm, hk]

@[simp] theorem pure_apply (a : α) (w : σ) : (pure a : Run ε σ α) w = (.done a, w) := rfl

@[simp] theorem fault_apply (e : ε) (w : σ) : (fault e : Run ε σ α) w = (.fault e, w) := rfl

@[simp] theorem unfinished_apply (w : σ) : (unfinished : Run ε σ α) w = (.unfinished, w) := rfl

@[simp] theorem modify_apply (f : σ → σ) (w : σ) :
    (modify f : Run ε σ Unit) w = (.done (), f w) := rfl

@[simp] theorem ofExcept_ok (a : α) : (ofExcept (.ok a) : Run ε σ α) = pure a := rfl

@[simp] theorem ofExcept_error (e : ε) : (ofExcept (.error e) : Run ε σ α) = fault e := rfl

@[simp] theorem ofExcept_pure (a : α) : (ofExcept (pure a) : Run ε σ α) = pure a := rfl

theorem ofExcept_bind (x : Except ε α) (k : α → Except ε β) :
    (ofExcept (x >>= k) : Run ε σ β) = ofExcept x >>= fun a => ofExcept (k a) := by
  cases x <;> rfl

@[simp] theorem fault_bind (e : ε) (k : α → Run ε σ β) :
    ((fault e : Run ε σ α) >>= k) = fault e := rfl

@[simp] theorem unfinished_bind (k : α → Run ε σ β) :
    ((unfinished : Run ε σ α) >>= k) = unfinished := rfl

theorem map_id_eq (m : Run ε σ α) : id <$> m = m := by
  funext w
  show Run.bind m (fun a => Run.pure (id a)) w = m w
  rcases h : m w with ⟨_ | _ | _, w'⟩ <;> simp [Run.bind, Run.pure, h]

theorem bind_bind {γ : Type} (m : Run ε σ α) (f : α → Run ε σ β) (g : β → Run ε σ γ) :
    m >>= f >>= g = m >>= fun a => f a >>= g := by
  funext w
  show Run.bind (Run.bind m f) g w = Run.bind m (fun a => Run.bind (f a) g) w
  rcases h : m w with ⟨_ | _ | _, w'⟩ <;> simp [Run.bind, h]

instance : LawfulMonad (Run ε σ) :=
  LawfulMonad.mk' (Run ε σ) map_id_eq (fun _ _ => rfl) bind_bind

/-! ## Deeper runs -/

/-- Wherever `m` ends, `m'` ends in the same way. -/
def Below (m m' : Run ε σ α) : Prop := ∀ w, (m w).1 ≠ .unfinished → m' w = m w

theorem Below.refl (m : Run ε σ α) : Below m m := fun _ _ => rfl

theorem Below.trans {m₁ m₂ m₃ : Run ε σ α} (h₁ : Below m₁ m₂) (h₂ : Below m₂ m₃) :
    Below m₁ m₃ := by
  intro w h
  have e₁ := h₁ w h
  rw [h₂ w (by rw [e₁]; exact h), e₁]

theorem unfinished_below (m : Run ε σ α) : Below unfinished m :=
  fun _ h => absurd rfl h

theorem Below.bind {m m' : Run ε σ α} {k k' : α → Run ε σ β} (hm : Below m m')
    (hk : ∀ a, Below (k a) (k' a)) : Below (m >>= k) (m' >>= k') := by
  intro w h
  rcases e : m w with ⟨a | f | _, w'⟩
  · have e' := hm w (by simp [e])
    rw [e] at e'
    rw [bind_done e] at h ⊢
    rw [bind_done e']
    exact hk a w' h
  · have e' := hm w (by simp [e])
    rw [e] at e'
    rw [bind_fault e, bind_fault e']
  · rw [bind_unfinished e] at h
    exact absurd rfl h

/-- What holds from each bound to the next holds from each bound to all larger ones. -/
theorem below_of_succ {f : Nat → Run ε σ α}
    (h : ∀ n, Below (f n) (f (n + 1))) {m n : Nat} (hmn : m ≤ n) : Below (f m) (f n) := by
  induction hmn with
  | refl => exact Below.refl _
  | step _ ih => exact ih.trans (h _)

end Run

end EffectCalculus
