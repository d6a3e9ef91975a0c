import EffectCalculus.Proofs.Term.Capture
import EffectCalculus.Proofs.Term.Fill
import EffectCalculus.Proofs.Term.Position

/-!
# What substitution can change

Free variables are listed by taking the parameter away at every binder, and substitution stops at
the binders of its name. The two come to the same: a substitution shows in the result exactly if its
name is among the free variables, unless it puts the variable itself back.

* `same_var_iff`: the terms that are equal to a variable up to its position;
* `same_subst_iff`: **a substitution leaves the term the same** if the name is not free in it, or if
  the replacement is a variable of that name, and in no other case;
* `subst_of_not_isFree`, `substViaReader_of_not_isFree`, `substAvoiding_of_not_isFree`: a name that
  is not free has nothing to replace, and no binder is renamed on its account;
* `subst_changes_free`: the three substitutions and the list of free variables together.
-/

namespace EffectCalculus.Term

variable {x : String} {r e t : Term}

/-! ## Results that are the same -/

theorem same_var_iff {pos : Pos} : r.same (.var pos x) = true ↔ ∃ q, r = .var q x := by
  constructor
  · intro h
    cases r with
    | var q y =>
      have hy : y = x := by simpa [same] using h
      exact ⟨q, by rw [hy]⟩
    | _ => cases h
  · rintro ⟨q, rfl⟩
    simp [same]

/-- Below each binder both sides say the same of the body: the result there is the same exactly if a
free occurrence in the body asks for a variable of that name. -/
theorem same_subst_iff (hr : r.WellFormed) (he : e.WellFormed) (ht : subst x r e = .ok t) :
    t.same e = true ↔ (e.IsFree x → ∃ pos, r = .var pos x) := by
  induction e generalizing t with
  | var pos y =>
    by_cases hy : y = x
    · subst hy
      have hrt : r = t := by simpa [subst] using ht
      simp [← hrt, same_var_iff]
    · have htv : var pos y = t := by simpa [subst, hy] using ht
      have hfree : ¬ (var pos y).IsFree x := fun h => hy (isFree_var.mp h).symm
      simp [← htv, same_refl, hfree]
  | num pos n =>
    cases ht
    simp [same_refl]
  | atom => exact he.elim
  | app pos f a ihf iha =>
    obtain ⟨f', hf, -⟩ := exists_subst x hr he.1
    obtain ⟨a', ha, -⟩ := exists_subst x hr he.2
    cases (subst_app hf ha).symm.trans ht
    rw [same, Bool.and_eq_true, ihf he.1 hf, iha he.2 ha, isFree_app he.1 he.2, or_imp]
  | add pos l r' ihl ihr =>
    obtain ⟨l', hl, -⟩ := exists_subst x hr he.1
    obtain ⟨r'', hr', -⟩ := exists_subst x hr he.2
    cases (subst_add hl hr').symm.trans ht
    rw [same, Bool.and_eq_true, ihl he.1 hl, ihr he.2 hr', isFree_add he.1 he.2, or_imp]
  | abs pos y b ih =>
    by_cases hy : y = x
    · subst hy
      cases subst_abs_self.symm.trans ht
      simp [same_refl]
    · obtain ⟨b', hb, -⟩ := exists_subst x hr (e := b) he
      cases (subst_abs hy hb).symm.trans ht
      have hfree : (abs pos y b).IsFree x ↔ b.IsFree x := by simp [Ne.symm hy]
      have hsame : (abs pos y b').same (.abs pos y b) = b'.same b := by simp [same]
      rw [hsame, hfree, ih he hb]

/-! ## Names that are not free -/

theorem subst_of_not_isFree (r : Term) (he : e.WellFormed) (hx : ¬ e.IsFree x) :
    subst x r e = .ok e := by
  have huntouched : ∀ z, e.IsFree z → Filling.single x r z = none := by
    intro z hz
    have hzx : z ≠ x := fun h => hx (h ▸ hz)
    simp [Filling.single, hzx]
  rw [subst_eq_fill x r he, fill_of_untouched he huntouched]

theorem substViaReader_of_not_isFree (r : Term) (he : e.WellFormed) (hx : ¬ e.IsFree x) :
    substViaReader x r e = .ok e := by
  rw [substViaReader_eq_subst x r he, subst_of_not_isFree r he hx]

theorem not_captures_of_not_isFree (r : Term) (he : e.WellFormed) (hx : ¬ e.IsFree x) :
    ¬ Captures x r e := by
  rintro ⟨ys, pos, hmem, hys, -⟩
  exact hx ((isFree_iff_place he).mpr ⟨ys, pos, hmem, hys⟩)

/-- No binder captures anything if there is nothing to replace below it, so none is renamed. -/
theorem substAvoiding_of_not_isFree (hr : r.WellFormed) (he : e.WellFormed) (hx : ¬ e.IsFree x) :
    substAvoiding x r e = .ok e := by
  obtain ⟨t, ht, havoids⟩ := exists_avoids x hr he
  have hplain := havoids.subst_eq_of_harmless he (not_captures_of_not_isFree r he hx)
  rw [ht, ← hplain, subst_of_not_isFree r he hx]

/-- **The free variables are what substitution can change.** They are listed, and the substitution
has a result; the result is the term itself, up to positions, exactly if the name is not in the list
or the replacement is a variable of that name. If it is not in the list, all three substitutions
give the term back with its positions. -/
theorem subst_changes_free (x : String) {r e : Term} (hr : r.WellFormed) (he : e.WellFormed) :
    ∃ xs t, e.freeVars = .ok xs ∧ subst x r e = .ok t ∧
      (t.same e = true ↔ x ∉ xs ∨ ∃ pos, r = .var pos x) ∧
      (x ∉ xs → subst x r e = .ok e ∧ substViaReader x r e = .ok e ∧
        substAvoiding x r e = .ok e) := by
  obtain ⟨xs, hxs⟩ := exists_freeVars he
  obtain ⟨t, ht, -⟩ := exists_subst x hr he
  have hfree : e.IsFree x ↔ x ∈ xs := by simp [IsFree, hxs]
  refine ⟨xs, t, hxs, ht, ?_, fun hx => ?_⟩
  · rw [same_subst_iff hr he ht, hfree, imp_iff_not_or]
  · rw [← hfree] at hx
    exact ⟨subst_of_not_isFree r he hx, substViaReader_of_not_isFree r he hx,
      substAvoiding_of_not_isFree hr he hx⟩

/-- In `both` the name has a bound and a free occurrence; in `bound` it has no free one, and a
binder has the name of the replacement. Replaced by a variable of its own name, it only moves. -/
theorem subst_changes_free_shadowed :
    let y : Term := .var ⟨1, 0⟩ "y"
    let x : Term := .var ⟨2, 0⟩ "x"
    let both : Term := .app ⟨0, 0⟩ (.abs ⟨0, 1⟩ "x" (.var ⟨0, 2⟩ "x")) (.var ⟨0, 3⟩ "x")
    let bound : Term := .abs ⟨0, 0⟩ "y" (.abs ⟨0, 1⟩ "x" (.var ⟨0, 2⟩ "x"))
    y.WellFormed ∧ x.WellFormed ∧ both.WellFormed ∧ bound.WellFormed ∧
      both.freeVars = .ok ["x"] ∧ bound.freeVars = .ok [] ∧
      (∃ t, subst "x" y both = .ok t ∧ ¬ t.same both = true) ∧
      (∃ t, subst "x" x both = .ok t ∧ t ≠ both ∧ t.same both = true) ∧
      subst "x" y bound = .ok bound ∧ substViaReader "x" y bound = .ok bound ∧
      substAvoiding "x" y bound = .ok bound := by
  intro y x both bound
  have hy : y.WellFormed := by decide
  have hx : x.WellFormed := by decide
  have hboth : both.WellFormed := by decide
  have hbound : bound.WellFormed := by decide
  have hfree : both.freeVars = .ok ["x"] := rfl
  have hnone : bound.freeVars = .ok [] := rfl
  have hchanged : ∃ t, subst "x" y both = .ok t ∧ ¬ t.same both = true := by
    obtain ⟨xs, t, hxs, ht, hiff, -⟩ := subst_changes_free "x" hy hboth
    cases hfree.symm.trans hxs
    refine ⟨t, ht, fun h => ?_⟩
    rcases hiff.mp h with hx | ⟨pos, hpos⟩
    · exact hx List.mem_cons_self
    · simp [y] at hpos
  have hmoved : ∃ t, subst "x" x both = .ok t ∧ t ≠ both ∧ t.same both = true := by
    obtain ⟨xs, t, -, ht, hiff, -⟩ := subst_changes_free "x" hx hboth
    cases ht
    exact ⟨_, rfl, by decide, hiff.mpr (.inr ⟨_, rfl⟩)⟩
  obtain ⟨xs, t, hxs, -, -, hback⟩ := subst_changes_free "x" hy hbound
  cases hnone.symm.trans hxs
  exact ⟨hy, hx, hboth, hbound, hfree, hnone, hchanged, hmoved, hback List.not_mem_nil⟩

end EffectCalculus.Term
