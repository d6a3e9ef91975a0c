import EffectCalculus.Proofs.Term.Instantiate

/-!
# Renaming of bound variables

Two terms are equal up to consistent renaming if they are built alike, with variables that belong to
corresponding binders in corresponding places, and the same free variables. Positions do not count.

* `Linked`, `AlphaIn`, `Alpha`: names that mean the same below paired binders, and terms that are
  equal up to renaming;
* `alpha_iff_nameless`: these are the terms with one nameless form, so renaming can be decided;
* `AlphaIn.read`: **renaming lemma**, such terms have one reading, whatever free names stand for.
-/

namespace EffectCalculus

/-! ## Indices -/

namespace Nameless

theorem shift_injective {c : Nat} {s t : Nameless} (h : s.shift c = t.shift c) : s = t := by
  have heq : (s.shift c).instantiate c (.num 0) = (t.shift c).instantiate c (.num 0) := by rw [h]
  rwa [instantiate_shift, instantiate_shift] at heq

/-- Room made for a binder is not its own index. -/
theorem shift_ne_bound {c : Nat} (t : Nameless) : t.shift c ≠ .bound c := by
  cases t with
  | bound i =>
    intro h
    have hi : (if i < c then i else i + 1) = c := bound.inj h
    split at hi <;> omega
  | _ => simp [shift]

/-- An index or a free name: what a variable can be. -/
def IsName : Nameless → Prop
  | .bound _ | .free _ => True
  | _ => False

end Nameless

namespace Term

/-! ## Paired binders -/

/-- `x` in the one term and `y` in the other mean the same below the paired binders `scope`, the
innermost first: the first pair that binds either of them binds both, or they are one free name. -/
def Linked : List (String × String) → String → String → Prop
  | [], x, y => x = y
  | (a, b) :: scope, x, y => (x = a ∧ y = b) ∨ (x ≠ a ∧ y ≠ b ∧ Linked scope x y)

theorem linked_iff_within {scope : List (String × String)} {x y : String} :
    Linked scope x y ↔
      Reading.within (scope.map Prod.fst) x = Reading.within (scope.map Prod.snd) y := by
  induction scope with
  | nil => simp [Linked, Reading.within]
  | cons p scope ih =>
    obtain ⟨a, b⟩ := p
    simp only [List.map_cons, Reading.within_cons, Linked, ih]
    by_cases hx : x = a <;> by_cases hy : y = b <;> simp only [Reading.under, hx, hy, ↓reduceIte]
    · simp
    · simpa using (Nameless.shift_ne_bound _).symm
    · simpa using Nameless.shift_ne_bound _
    · simpa [hx, hy] using ⟨fun h => by rw [h], Nameless.shift_injective⟩

/-- `AlphaIn scope e e'`: below the paired binders `scope`, `e` and `e'` are equal up to positions
and consistent renaming of their bound variables. -/
inductive AlphaIn : List (String × String) → Term → Term → Prop
  | var {scope : List (String × String)} {p q : Pos} {x y : String} (h : Linked scope x y) :
      AlphaIn scope (.var p x) (.var q y)
  | app {scope : List (String × String)} {p q : Pos} {f f' a a' : Term} (hf : AlphaIn scope f f')
      (ha : AlphaIn scope a a') : AlphaIn scope (.app p f a) (.app q f' a')
  | abs {scope : List (String × String)} {p q : Pos} {x y : String} {b b' : Term}
      (hb : AlphaIn ((x, y) :: scope) b b') : AlphaIn scope (.abs p x b) (.abs q y b')
  | num {scope : List (String × String)} {p q : Pos} {n : Int} :
      AlphaIn scope (.num p n) (.num q n)
  | add {scope : List (String × String)} {p q : Pos} {l l' r r' : Term} (hl : AlphaIn scope l l')
      (hr : AlphaIn scope r r') : AlphaIn scope (.add p l r) (.add q l' r')
  | atom {scope : List (String × String)} {a : Atom} : AlphaIn scope (.atom a) (.atom a)

/-- `e` and `e'` are equal up to positions and consistent renaming of their bound variables. -/
def Alpha (e e' : Term) : Prop := AlphaIn [] e e'

/-! ## One reading -/

/-- **Renaming lemma.** -/
theorem AlphaIn.read {scope : List (String × String)} {e e' : Term} (h : AlphaIn scope e e')
    {φ ψ : Reading} (hφ : ∀ x y, Linked scope x y → φ x = ψ y) : e.read φ = e'.read ψ := by
  induction h generalizing φ ψ with
  | var h => exact hφ _ _ h
  | num | atom => rfl
  | app _ _ ihf iha => simp only [Term.read, ihf hφ, iha hφ]
  | add _ _ ihl ihr => simp only [Term.read, ihl hφ, ihr hφ]
  | @abs scope p q x y b b' _ ih =>
    have hunder : ∀ u v, Linked ((x, y) :: scope) u v → φ.under x u = ψ.under y v := by
      rintro u v (⟨rfl, rfl⟩ | ⟨hu, hv, huv⟩)
      · simp [Reading.under]
      · simp [Reading.under, hu, hv, hφ u v huv]
    simp only [Term.read, ih hunder]

theorem Alpha.read {e e' : Term} (h : e.Alpha e') (φ : Reading) : e.read φ = e'.read φ :=
  AlphaIn.read h fun _ _ hxy => congrArg φ hxy

/-! ## One nameless form -/

theorem isName_within (scope : List String) (x : String) :
    (Reading.within scope x).IsName := by
  unfold Reading.within
  cases scope.idxOf? x <;> trivial

/-- Only a variable reads like a variable. -/
theorem eq_var_of_read {scope scope' : List String} {e : Term} {q : Pos} {y : String}
    (h : e.read (Reading.within scope) = (var q y).read (Reading.within scope')) :
    ∃ p x, e = .var p x := by
  have hname : (e.read (Reading.within scope)).IsName := by
    rw [h]
    exact isName_within scope' y
  cases e with
  | var p x => exact ⟨p, x, rfl⟩
  | _ => exact hname.elim

theorem alphaIn_of_read {scope : List (String × String)} {e e' : Term}
    (h : e.read (Reading.within (scope.map Prod.fst)) =
      e'.read (Reading.within (scope.map Prod.snd))) : AlphaIn scope e e' := by
  induction e generalizing scope e' with
  | var p x =>
    obtain ⟨q, y, rfl⟩ := eq_var_of_read h.symm
    exact .var (linked_iff_within.mpr h)
  | num p n =>
    cases e' with
    | var => obtain ⟨_, _, ⟨⟩⟩ := eq_var_of_read h
    | num q m =>
      cases h
      exact .num
    | _ => cases h
  | atom a =>
    cases e' with
    | var => obtain ⟨_, _, ⟨⟩⟩ := eq_var_of_read h
    | atom b =>
      cases h
      exact .atom
    | _ => cases h
  | app p f a ihf iha =>
    cases e' with
    | var => obtain ⟨_, _, ⟨⟩⟩ := eq_var_of_read h
    | app q f' a' =>
      simp only [read, Nameless.app.injEq] at h
      exact .app (ihf h.1) (iha h.2)
    | _ => cases h
  | add p l r ihl ihr =>
    cases e' with
    | var => obtain ⟨_, _, ⟨⟩⟩ := eq_var_of_read h
    | add q l' r' =>
      simp only [read, Nameless.add.injEq] at h
      exact .add (ihl h.1) (ihr h.2)
    | _ => cases h
  | abs p x b ih =>
    cases e' with
    | var => obtain ⟨_, _, ⟨⟩⟩ := eq_var_of_read h
    | abs q y b' =>
      simp only [read, Nameless.abs.injEq, ← Reading.within_cons] at h
      exact .abs (ih h)
    | _ => cases h

/-- Renaming bound variables is all that the nameless form forgets, besides positions. -/
theorem alpha_iff_nameless {e e' : Term} : e.Alpha e' ↔ e.nameless = e'.nameless := by
  rw [nameless_eq_read, nameless_eq_read]
  exact ⟨fun h => h.read Nameless.free, fun h => (alphaIn_of_read h : AlphaIn [] e e')⟩

instance (e e' : Term) : Decidable (e.Alpha e') := decidable_of_iff _ alpha_iff_nameless.symm

end Term

end EffectCalculus
