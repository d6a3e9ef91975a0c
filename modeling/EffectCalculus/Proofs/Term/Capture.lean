import EffectCalculus.Proofs.Term.Avoiding
import EffectCalculus.Proofs.Term.Place

/-!
# Where capture happens

Plain substitution captures where a free occurrence of the name stands below a binder of a free
variable of the replacement. The two substitutions differ in exactly these cases: a binder is tested
for itself and then renamed, and the outermost one that captures keeps its name in one result and
not in the other.

* `Captures`: the condition, on the term before any substitution;
* `captures_abs`, `captures_app`, `captures_add`: where in a term it arises;
* `Avoids.subst_eq_of_harmless`, `Avoids.not_same`: without capture nothing is renamed, and with
  capture the results differ in a name;
* `substAvoiding_eq_subst_iff`: **capture avoidance changes the result exactly when capture would
  happen**.
-/

namespace EffectCalculus.Term

variable {x y : String} {r e t f a b l : Term} {pos : Pos}

/-- Some free occurrence of `x` in `e` stands below a binder of a free variable of `r`. -/
def Captures (x : String) (r e : Term) : Prop :=
  ∃ ys pos, ⟨ys, .var pos x⟩ ∈ e.places ∧ x ∉ ys ∧ ∃ y ∈ ys, r.IsFree y

/-! ## Where it arises -/

theorem not_captures_var : ¬ Captures x r (var pos y) := by
  rintro ⟨ys, q, hmem, -, z, hz, -⟩
  obtain ⟨rfl, -⟩ := mem_places_var.mp hmem
  exact List.not_mem_nil hz

theorem not_captures_num {n : Int} : ¬ Captures x r (num pos n) := by
  rintro ⟨ys, q, hmem, -⟩
  cases (mem_places_num.mp hmem).2

theorem captures_app : Captures x r (app pos f a) ↔ Captures x r f ∨ Captures x r a := by
  simp only [Captures, mem_places_app, reduceCtorEq, and_false, false_or, or_and_right, exists_or]

theorem captures_add : Captures x r (add pos l e) ↔ Captures x r l ∨ Captures x r e := by
  simp only [Captures, mem_places_add, reduceCtorEq, and_false, false_or, or_and_right, exists_or]

/-- At an abstraction, by its own parameter or further down; never below a binder of the name. -/
theorem captures_abs (h : (abs pos y b).WellFormed) :
    Captures x r (abs pos y b) ↔ y ≠ x ∧ ((r.IsFree y ∧ b.IsFree x) ∨ Captures x r b) := by
  have hb : b.WellFormed := h
  constructor
  · rintro ⟨ys, q, hmem, hx, z, hz, hrz⟩
    simp only [mem_places_abs, reduceCtorEq, and_false, false_or] at hmem
    obtain ⟨zs, rfl, hmem⟩ := hmem
    rw [List.mem_cons, not_or] at hx
    refine ⟨Ne.symm hx.1, ?_⟩
    rcases List.mem_cons.mp hz with rfl | hz
    · exact .inl ⟨hrz, (isFree_iff_place hb).mpr ⟨zs, q, hmem, hx.2⟩⟩
    · exact .inr ⟨zs, q, hmem, hx.2, z, hz, hrz⟩
  · rintro ⟨hy, ⟨hry, hbx⟩ | ⟨zs, q, hmem, hx, z, hz, hrz⟩⟩
    · obtain ⟨zs, q, hmem, hx⟩ := (isFree_iff_place hb).mp hbx
      exact ⟨y :: zs, q, by simp [hmem], by simp [hx, Ne.symm hy], y, List.mem_cons_self, hry⟩
    · exact ⟨y :: zs, q, by simp [hmem], by simp [hx, Ne.symm hy], z, List.mem_cons_of_mem _ hz,
        hrz⟩

theorem not_captures_of_closed (hr : r.Closed) : ¬ Captures x r e := by
  rintro ⟨-, -, -, -, y, -, hy⟩
  exact hr y hy

/-! ## What follows for the results -/

/-- Without capture no binder is renamed. -/
theorem Avoids.subst_eq_of_harmless (h : Avoids x r e t) (he : e.WellFormed)
    (harmless : ¬ Captures x r e) : subst x r e = .ok t := by
  induction h with
  | hit => simp [subst]
  | miss hy => simp [subst, hy]
  | num => rfl
  | app _ _ ihf iha =>
    rw [captures_app, not_or] at harmless
    exact subst_app (ihf he.1 harmless.1) (iha he.2 harmless.2)
  | add _ _ ihl ihe =>
    rw [captures_add, not_or] at harmless
    exact subst_add (ihl he.1 harmless.1) (ihe he.2 harmless.2)
  | shadowed => exact subst_abs_self
  | kept hy _ _ ih =>
    exact subst_abs hy (ih he fun hb => harmless ((captures_abs he).mpr ⟨hy, .inr hb⟩))
  | renamed hy hrs hbs captures =>
    have hry := (isFree_iff_mem hrs).mpr captures.1
    have hbx := (isFree_iff_mem hbs).mpr captures.2
    exact absurd ((captures_abs he).mpr ⟨hy, .inl ⟨hry, hbx⟩⟩) harmless

/-- With capture, the outermost binder that captures has another name. Inside of it the two results
need not be compared, and outside of it both are built alike. -/
theorem Avoids.not_same (h : Avoids x r e t) (hr : r.WellFormed) (he : e.WellFormed)
    (captures : Captures x r e) {t' : Term} (ht' : subst x r e = .ok t') : t.same t' = false := by
  induction h generalizing t' with
  | hit | miss => exact absurd captures not_captures_var
  | num => exact absurd captures not_captures_num
  | @app x r pos f f' a a' _ _ ihf iha =>
    obtain ⟨f'', hf, -⟩ := exists_subst x hr he.1
    obtain ⟨a'', ha, -⟩ := exists_subst x hr he.2
    cases (subst_app hf ha).symm.trans ht'
    rcases captures_app.mp captures with hc | hc
    · simp [same, ihf hr he.1 hc hf]
    · simp [same, iha hr he.2 hc ha]
  | @add x r pos l l' e e' _ _ ihl ihe =>
    obtain ⟨l'', hl, -⟩ := exists_subst x hr he.1
    obtain ⟨e'', he', -⟩ := exists_subst x hr he.2
    cases (subst_add hl he').symm.trans ht'
    rcases captures_add.mp captures with hc | hc
    · simp [same, ihl hr he.1 hc hl]
    · simp [same, ihe hr he.2 hc he']
  | shadowed => exact absurd rfl ((captures_abs he).mp captures).1
  | @kept x r pos y b b' hy harmless _ ih =>
    obtain ⟨b'', hb, -⟩ := exists_subst x hr (e := b) he
    cases (subst_abs hy hb).symm.trans ht'
    rcases ((captures_abs he).mp captures).2 with hc | hc
    · exact absurd hc harmless
    · simp [same, ih hr he hc hb]
  | @renamed x r pos y b b₁ b₂ rs bs hy _ _ _ _ _ _ _ =>
    obtain ⟨b'', hb, -⟩ := exists_subst x hr (e := b) he
    cases (subst_abs hy hb).symm.trans ht'
    have hlong := length_lt_freshName (rs ++ bs) y
    have hne : freshName (rs ++ bs) y ≠ y := by
      intro heq
      rw [heq] at hlong
      exact Nat.lt_irrefl _ hlong
    simp [same, hne]

/-- **Capture avoidance changes the result exactly when capture would happen.** Both substitutions
end; they give the same term, positions included, exactly if no binder that encloses a free
occurrence of the name binds a free variable of the replacement; and otherwise two terms that differ
even up to positions. -/
theorem substAvoiding_eq_subst_iff (x : String) {r e : Term} (hr : r.WellFormed)
    (he : e.WellFormed) :
    ∃ t t', substAvoiding x r e = .ok t ∧ subst x r e = .ok t' ∧
      (t = t' ↔ ¬ Captures x r e) ∧ (Captures x r e → t.same t' = false) := by
  obtain ⟨t, ht, havoids⟩ := exists_avoids x hr he
  obtain ⟨t', ht', -⟩ := exists_subst x hr he
  have hdiffer : Captures x r e → t.same t' = false := fun hc => havoids.not_same hr he hc ht'
  refine ⟨t, t', ht, ht', ⟨?_, fun hc => ?_⟩, hdiffer⟩
  · rintro rfl hc
    have hsame := hdiffer hc
    rw [same_refl] at hsame
    cases hsame
  · exact Except.ok.inj ((havoids.subst_eq_of_harmless he hc).symm.trans ht')

/-- The inner of two binders captures `y`; a binder of `y` around bound occurrences of `x` does
not. -/
theorem substAvoiding_eq_subst_iff_nested :
    let r : Term := .var ⟨1, 0⟩ "y"
    let caught : Term := .abs ⟨0, 0⟩ "z" (.abs ⟨0, 1⟩ "y"
      (.app ⟨0, 2⟩ (.var ⟨0, 3⟩ "x") (.var ⟨0, 4⟩ "z")))
    let spared : Term := .abs ⟨0, 0⟩ "y" (.abs ⟨0, 1⟩ "x"
      (.app ⟨0, 2⟩ (.var ⟨0, 3⟩ "x") (.var ⟨0, 4⟩ "y")))
    r.WellFormed ∧ caught.WellFormed ∧ spared.WellFormed ∧ Captures "x" r caught ∧
      ¬ Captures "x" r spared ∧
      (∃ t t', substAvoiding "x" r caught = .ok t ∧ subst "x" r caught = .ok t' ∧
        t.same t' = false) ∧
      ∃ t, substAvoiding "x" r spared = .ok t ∧ subst "x" r spared = .ok t := by
  intro r caught spared
  have hr : r.WellFormed := by decide
  have hcaught : caught.WellFormed := by decide
  have hspared : spared.WellFormed := by decide
  have hc : Captures "x" r caught :=
    ⟨["z", "y"], ⟨0, 3⟩, by decide, by decide, "y", by decide, isFree_var.mpr rfl⟩
  have hs : ¬ Captures "x" r spared := by
    intro h
    rcases ((captures_abs hspared).mp h).2 with ⟨-, hfree⟩ | h
    · exact absurd rfl (isFree_abs.mp hfree).2
    · exact absurd rfl ((captures_abs (by decide)).mp h).1
  obtain ⟨t, t', ht, ht', -, hdiffer⟩ := substAvoiding_eq_subst_iff "x" hr hcaught
  obtain ⟨s, s', hs', hs'', hsame, -⟩ := substAvoiding_eq_subst_iff "x" hr hspared
  obtain rfl := hsame.mpr hs
  exact ⟨hr, hcaught, hspared, hc, hs, ⟨t, t', ht, ht', hdiffer hc⟩, s, hs', hs''⟩

end EffectCalculus.Term
