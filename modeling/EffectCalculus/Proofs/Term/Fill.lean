import EffectCalculus.Proofs.Term.Scope

/-!
# Filling

Replacing several free variables at once. Like plain substitution, filling renames no binder.

* `fill`: the free variables that `σ` knows are replaced;
* `subst_eq_fill`: plain substitution in a term without atoms fills one variable;
* `fill_fill_of_spares`: filling, and then filling names that the terms put in do not mention, is
  filling once; `fill_fill`: the same for closed terms;
* `isFree_fill`: what is left free is what was not filled;
* `substEach_eq_fill`: substituting closed terms one after the other fills with all of them.
-/

namespace EffectCalculus.Term

/-- Terms for some of the names. -/
abbrev Filling := String → Option Term

namespace Filling

/-- All but the term for `y`. -/
def without (σ : Filling) (y : String) : Filling := fun z => if z = y then none else σ z

/-- A term for `x` only. -/
def single (x : String) (r : Term) : Filling := fun z => if z = x then some r else none

/-- The terms of `σ`, and those of `τ` for the other names. -/
def orElse (σ τ : Filling) : Filling := fun z => (σ z).or (τ z)

/-- Every term is closed and without atoms. -/
def Closed (σ : Filling) : Prop := ∀ z t, σ z = some t → t.WellFormed ∧ t.Closed

theorem eq_some_of_without {σ : Filling} {y z : String} {t : Term}
    (h : σ.without y z = some t) : σ z = some t := by
  by_cases hzy : z = y
  · simp [Filling.without, hzy] at h
  · simpa only [Filling.without, hzy, ↓reduceIte] using h

theorem Closed.without {σ : Filling} (h : σ.Closed) (y : String) : (σ.without y).Closed :=
  fun z t hz => h z t (eq_some_of_without hz)

/-- No term of `σ` mentions a name that `τ` knows. -/
def Spares (σ τ : Filling) : Prop :=
  ∀ z t, σ z = some t → t.WellFormed ∧ ∀ u, t.IsFree u → τ u = none

theorem Spares.without {σ τ : Filling} (h : σ.Spares τ) (y : String) :
    (σ.without y).Spares (τ.without y) := by
  intro z t hz
  obtain ⟨ht, hfree⟩ := h z t (eq_some_of_without hz)
  exact ⟨ht, fun u hu => by simp [Filling.without, hfree u hu]⟩

theorem Closed.spares {σ : Filling} (h : σ.Closed) (τ : Filling) : σ.Spares τ :=
  fun z t hz => ⟨(h z t hz).1, fun u hu => absurd hu ((h z t hz).2 u)⟩

theorem orElse_without (σ τ : Filling) (y : String) :
    (σ.without y).orElse (τ.without y) = (σ.orElse τ).without y := by
  funext z
  by_cases hz : z = y <;> simp [orElse, without, hz]

theorem single_without_self (x : String) (r : Term) :
    (single x r).without x = fun _ => none := by
  funext z
  by_cases hz : z = x <;> simp [single, without, hz]

theorem single_without {x y : String} (h : y ≠ x) (r : Term) :
    (single x r).without y = single x r := by
  funext z
  by_cases hz : z = y
  · simp [single, without, hz, h]
  · simp [single, without, hz]

end Filling

/-- The free variables that `σ` knows are replaced by their terms. -/
def fill (σ : Filling) : Term → Term
  | .var pos x => (σ x).getD (.var pos x)
  | .app pos f a => .app pos (f.fill σ) (a.fill σ)
  | .abs pos y b => .abs pos y (b.fill (σ.without y))
  | .num pos n => .num pos n
  | .add pos l r => .add pos (l.fill σ) (r.fill σ)
  | .atom a => .atom a

theorem fill_none (e : Term) : e.fill (fun _ => none) = e := by
  have hw : ∀ y, Filling.without (fun _ => none) y = fun _ => none := by
    intro y
    funext z
    simp [Filling.without]
  induction e with
  | var | num | atom => rfl
  | app pos f a ihf iha => simp only [fill, ihf, iha]
  | abs pos y b ih => simp only [fill, hw, ih]
  | add pos l r ihl ihr => simp only [fill, ihl, ihr]

theorem fill_congr {σ τ : Filling} {e : Term} (he : e.WellFormed)
    (h : ∀ z, e.IsFree z → σ z = τ z) : e.fill σ = e.fill τ := by
  induction e generalizing σ τ with
  | var pos x => simp only [fill, h x (isFree_var.mpr rfl)]
  | num => rfl
  | atom => exact he.elim
  | app pos f a ihf iha =>
    simp only [isFree_app he.1 he.2] at h
    simp only [fill, ihf he.1 fun z hz => h z (.inl hz), iha he.2 fun z hz => h z (.inr hz)]
  | add pos l r ihl ihr =>
    simp only [isFree_add he.1 he.2] at h
    simp only [fill, ihl he.1 fun z hz => h z (.inl hz), ihr he.2 fun z hz => h z (.inr hz)]
  | abs pos y b ih =>
    have hb : ∀ z, b.IsFree z → σ.without y z = τ.without y z := by
      intro z hz
      by_cases hzy : z = y
      · simp [Filling.without, hzy]
      · simp [Filling.without, hzy, h z (isFree_abs.mpr ⟨hz, hzy⟩)]
    simp only [fill, ih he hb]

/-- Filling names that a term does not mention leaves it as it is. -/
theorem fill_of_untouched {σ : Filling} {e : Term} (he : e.WellFormed)
    (h : ∀ z, e.IsFree z → σ z = none) : e.fill σ = e :=
  (fill_congr he h).trans (fill_none e)

theorem subst_eq_fill (x : String) (r : Term) {e : Term} (he : e.WellFormed) :
    subst x r e = .ok (e.fill (Filling.single x r)) := by
  induction e with
  | var pos y => by_cases h : y = x <;> simp [subst, fill, Filling.single, h]
  | num => rfl
  | atom => exact he.elim
  | app pos f a ihf iha => exact subst_app (ihf he.1) (iha he.2)
  | add pos l e ihl ihe => exact subst_add (ihl he.1) (ihe he.2)
  | abs pos y b ih =>
    by_cases h : y = x
    · subst h
      rw [subst_abs_self, fill, Filling.single_without_self, fill_none]
    · rw [subst_abs h (ih he), fill, Filling.single_without h]

theorem fill_fill_of_spares {σ τ : Filling} (h : σ.Spares τ) (e : Term) :
    (e.fill σ).fill τ = e.fill (σ.orElse τ) := by
  induction e generalizing σ τ with
  | var pos x =>
    cases hx : σ x with
    | none => simp [fill, Filling.orElse, hx]
    | some t =>
      obtain ⟨ht, hfree⟩ := h x t hx
      simp [fill, Filling.orElse, hx, fill_of_untouched ht hfree]
  | num | atom => rfl
  | app pos f a ihf iha => simp only [fill, ihf h, iha h]
  | abs pos y b ih => simp only [fill, ih (h.without y), Filling.orElse_without]
  | add pos l r ihl ihr => simp only [fill, ihl h, ihr h]

theorem fill_fill {σ : Filling} (hσ : σ.Closed) (τ : Filling) (e : Term) :
    (e.fill σ).fill τ = e.fill (σ.orElse τ) :=
  fill_fill_of_spares (hσ.spares τ) e

theorem wellFormed_fill {σ : Filling} (hσ : σ.Closed) {e : Term} (he : e.WellFormed) :
    (e.fill σ).WellFormed := by
  induction e generalizing σ with
  | var pos x =>
    cases hx : σ x with
    | none => simp [fill, hx, WellFormed]
    | some t => simpa [fill, hx] using (hσ x t hx).1
  | num => trivial
  | atom => exact he.elim
  | app pos f a ihf iha => exact ⟨ihf hσ he.1, iha hσ he.2⟩
  | abs pos y b ih => exact ih (hσ.without y) he
  | add pos l r ihl ihr => exact ⟨ihl hσ he.1, ihr hσ he.2⟩

theorem isFree_fill {σ : Filling} (hσ : σ.Closed) {e : Term} (he : e.WellFormed) (z : String) :
    (e.fill σ).IsFree z ↔ e.IsFree z ∧ σ z = none := by
  induction e generalizing σ with
  | var pos x =>
    cases hx : σ x with
    | none =>
      simp only [fill, hx, Option.getD_none, isFree_var]
      constructor
      · rintro rfl
        exact ⟨rfl, hx⟩
      · exact And.left
    | some t =>
      simp only [fill, hx, Option.getD_some, isFree_var]
      constructor
      · exact fun hz => absurd hz ((hσ x t hx).2 z)
      · rintro ⟨rfl, hz⟩
        simp [hx] at hz
  | num => simp [fill]
  | atom => exact he.elim
  | app pos f a ihf iha =>
    rw [fill, isFree_app (wellFormed_fill hσ he.1) (wellFormed_fill hσ he.2), ihf hσ he.1,
      iha hσ he.2, isFree_app he.1 he.2, or_and_right]
  | add pos l r ihl ihr =>
    rw [fill, isFree_add (wellFormed_fill hσ he.1) (wellFormed_fill hσ he.2), ihl hσ he.1,
      ihr hσ he.2, isFree_add he.1 he.2, or_and_right]
  | abs pos y b ih =>
    rw [fill, isFree_abs, isFree_abs, ih (hσ.without y) he]
    by_cases hz : z = y
    · simp [hz]
    · simp [hz, Filling.without]

/-! ## One after the other -/

/-- Plain substitution of each term of the list, from the first on. -/
def substEach (e : Term) : List (String × Term) → Except EvalError Term
  | [] => .ok e
  | (x, r) :: rest => do
    let e ← subst x r e
    e.substEach rest

theorem substEach_eq_fill {σ : Bindings Term} (hσ : ∀ p ∈ σ, p.2.WellFormed ∧ p.2.Closed)
    {e : Term} (he : e.WellFormed) : e.substEach σ = .ok (e.fill σ.find?) := by
  induction σ generalizing e with
  | nil => exact congrArg Except.ok (fill_none e).symm
  | cons p rest ih =>
    obtain ⟨x, r⟩ := p
    have hs : (Filling.single x r).Closed := by
      intro z t hz
      by_cases hzx : z = x
      · simp only [Filling.single, hzx, ↓reduceIte, Option.some.injEq] at hz
        exact hz ▸ hσ (x, r) List.mem_cons_self
      · simp [Filling.single, hzx] at hz
    have hfind : (Filling.single x r).orElse (Bindings.find? rest) =
        Bindings.find? ((x, r) :: rest) := by
      funext z
      by_cases hz : x = z
      · simp [Filling.orElse, Filling.single, Bindings.find?, hz]
      · simp [Filling.orElse, Filling.single, Bindings.find?, hz, Ne.symm hz]
    have hrest := ih (fun p hp => hσ p (List.mem_cons_of_mem _ hp)) (wellFormed_fill hs he)
    simp only [substEach, subst_eq_fill x r he, bind, Except.bind]
    rw [hrest, fill_fill hs, hfind]

end EffectCalculus.Term
