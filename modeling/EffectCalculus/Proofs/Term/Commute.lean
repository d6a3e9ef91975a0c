import EffectCalculus.Proofs.Term.Fill

/-!
# Independent substitutions

Plain substitution captures, and it stops at binders of its name, so that two substitutions done one
after the other walk over different trees depending on which comes first. If neither replacement
mentions the name of the other substitution, the order does not matter: both come to one filling of
the two names.

* `subst_subst`: **two substitutions are one filling** if the second leaves the first replacement as
  it is;
* `subst_comm`: two independent substitutions commute, whatever the binders capture.
-/

namespace EffectCalculus.Term

variable {x y : String} {r s e : Term}

namespace Filling

theorem single_spares (hr : r.WellFormed) (hy : ¬ r.IsFree y) :
    (single x r).Spares (single y s) := by
  intro z t hz
  by_cases hzx : z = x
  · simp only [single, hzx, ↓reduceIte, Option.some.injEq] at hz
    subst hz
    refine ⟨hr, fun u hu => ?_⟩
    have huy : u ≠ y := fun h => hy (h ▸ hu)
    simp [single, huy]
  · simp [single, hzx] at hz

theorem single_orElse_comm (h : x ≠ y) :
    (single x r).orElse (single y s) = (single y s).orElse (single x r) := by
  funext z
  by_cases hzx : z = x
  · simp [orElse, single, hzx, h]
  · simp [orElse, single, hzx]

end Filling

/-- The second substitution does not see the copies of `r` that the first one has put in. Where a
binder of `e` has captured a name in such a copy, it has not captured `y`, which is not in `r`. -/
theorem subst_subst (x : String) (s : Term) (hr : r.WellFormed) (he : e.WellFormed)
    (hy : ¬ r.IsFree y) :
    (subst x r e >>= subst y s) =
      .ok (e.fill ((Filling.single x r).orElse (Filling.single y s))) := by
  obtain ⟨t, ht, hwf⟩ := exists_subst x hr he
  have hfill : t = e.fill (Filling.single x r) := by
    simpa [subst_eq_fill x r he, eq_comm] using ht
  calc (subst x r e >>= subst y s)
      = subst y s t := by rw [ht]; rfl
    _ = .ok (t.fill (Filling.single y s)) := subst_eq_fill y s hwf
    _ = .ok (e.fill ((Filling.single x r).orElse (Filling.single y s))) := by
        rw [hfill, fill_fill_of_spares (Filling.single_spares hr hy)]

/-- Two plain substitutions commute, positions included, if neither replacement mentions the name of
the other one. Nothing is asked of the binders of `e`: they may capture what the replacements do
mention, and they may have one of the two names. -/
theorem subst_comm (hxy : x ≠ y) (hr : r.WellFormed) (hs : s.WellFormed) (he : e.WellFormed)
    (hx : ¬ s.IsFree x) (hy : ¬ r.IsFree y) :
    ∃ t, (subst x r e >>= subst y s) = .ok t ∧ (subst y s e >>= subst x r) = .ok t := by
  refine ⟨_, subst_subst x s hr he hy, ?_⟩
  rw [subst_subst y r hs he hx, Filling.single_orElse_comm hxy]

/-- The outer binder captures a variable of each replacement, and one of the inner binders shadows
the first name, the other the second. -/
theorem subst_comm_captured :
    let r : Term := .app ⟨1, 0⟩ (.var ⟨1, 1⟩ "a") (.var ⟨1, 2⟩ "x")
    let s : Term := .add ⟨2, 0⟩ (.var ⟨2, 1⟩ "a") (.var ⟨2, 2⟩ "b")
    let e : Term := .abs ⟨0, 0⟩ "a" (.app ⟨0, 1⟩
      (.abs ⟨0, 2⟩ "x" (.app ⟨0, 3⟩ (.var ⟨0, 4⟩ "x") (.var ⟨0, 5⟩ "y")))
      (.abs ⟨0, 6⟩ "y" (.app ⟨0, 7⟩ (.var ⟨0, 8⟩ "x") (.var ⟨0, 9⟩ "y"))))
    let t : Term := .abs ⟨0, 0⟩ "a" (.app ⟨0, 1⟩
      (.abs ⟨0, 2⟩ "x" (.app ⟨0, 3⟩ (.var ⟨0, 4⟩ "x") s))
      (.abs ⟨0, 6⟩ "y" (.app ⟨0, 7⟩ r (.var ⟨0, 9⟩ "y"))))
    "x" ≠ "y" ∧ r.WellFormed ∧ s.WellFormed ∧ e.WellFormed ∧ ¬ s.IsFree "x" ∧ ¬ r.IsFree "y" ∧
      (subst "x" r e >>= subst "y" s) = .ok t ∧ (subst "y" s e >>= subst "x" r) = .ok t := by
  intro r s e t
  have hxy : "x" ≠ "y" := by decide
  have hr : r.WellFormed := by decide
  have hs : s.WellFormed := by decide
  have he : e.WellFormed := by decide
  have hx : ¬ s.IsFree "x" := by simp [s, isFree_iff_mem (e := s) rfl]
  have hy : ¬ r.IsFree "y" := by simp [r, isFree_iff_mem (e := r) rfl]
  obtain ⟨t', h₁, h₂⟩ := subst_comm hxy hr hs he hx hy
  have ht : (subst "x" r e >>= subst "y" s) = .ok t := rfl
  cases ht.symm.trans h₁
  exact ⟨hxy, hr, hs, he, hx, hy, h₁, h₂⟩

end EffectCalculus.Term
