import EffectCalculus.Proofs.Term.Nameless
import EffectCalculus.Term.Avoiding
import Mathlib.Data.List.Basic

/-!
# Capture avoidance

On terms without atoms, capture-avoiding substitution is replacement of a free name in the nameless
form, whatever the bound names are.

* `freshName_not_mem`, `length_lt_freshName`: the new name of a binder is none of those it has to
  avoid, and longer than the old one;
* `Avoids`, `exists_avoids`: the rules that the substitution follows, and that it ends by them;
* `Avoids.read`: **substitution lemma**, reading the result is reading the term with the name
  standing for the replacement;
* `nameless_substAvoiding`: the form of the result.
-/

namespace EffectCalculus.Term

open Function (update update_self update_of_ne)

/-! ## New names -/

/-- Each try that fails rules out one of the taken names that are at least as long. -/
theorem primed_not_mem (taken : List String) (tries : Nat) (name : String)
    (h : (taken.filter fun t => name.length ≤ t.length).length ≤ tries) :
    primed taken tries name ∉ taken := by
  induction tries generalizing name with
  | zero =>
    intro hmem
    have hnil := List.eq_nil_of_length_eq_zero (Nat.le_zero.mp h)
    exact List.filter_eq_nil_iff.mp hnil name hmem (by simp)
  | succ tries ih =>
    unfold primed
    split
    · next hmem =>
      apply ih
      have hlen : (name ++ "'").length = name.length + 1 := by
        rw [String.length_append]
        rfl
      have hsub : (taken.filter fun t => (name ++ "'").length ≤ t.length) =
          (taken.filter fun t => name.length ≤ t.length).filter
            fun t => (name ++ "'").length ≤ t.length := by
        rw [List.filter_filter, hlen]
        refine List.filter_congr fun t _ => ?_
        by_cases ht : name.length + 1 ≤ t.length
        · simp [ht, Nat.le_of_succ_le ht]
        · simp [ht]
      have hlt : (taken.filter fun t => (name ++ "'").length ≤ t.length).length <
          (taken.filter fun t => name.length ≤ t.length).length := by
        rw [hsub, List.length_filter_lt_length_iff_exists]
        exact ⟨name, by simp [hmem], by simp [hlen]⟩
      omega
    · next hmem => exact hmem

theorem freshName_not_mem (taken : List String) (y : String) : freshName taken y ∉ taken :=
  primed_not_mem taken _ _ (List.length_filter_le _ _)

theorem length_le_primed (taken : List String) (tries : Nat) (name : String) :
    name.length ≤ (primed taken tries name).length := by
  induction tries generalizing name with
  | zero => exact Nat.le_refl _
  | succ tries ih =>
    unfold primed
    split
    · have h := ih (name ++ "'")
      rw [String.length_append] at h
      omega
    · exact Nat.le_refl _

/-- A new name is longer than the old one, so a binder is never given its own name back. -/
theorem length_lt_freshName (taken : List String) (y : String) :
    y.length < (freshName taken y).length := by
  have h := length_le_primed taken taken.length (y ++ "'")
  rw [String.length_append] at h
  exact Nat.lt_of_lt_of_le (Nat.lt_succ_self _) h

/-! ## The rules of the substitution -/

/-- `Avoids x r e t`: with `x` replaced by `r` the term `e` becomes `t`. -/
inductive Avoids : String → Term → Term → Term → Prop
  | hit {x : String} {r : Term} {pos : Pos} : Avoids x r (.var pos x) r
  | miss {x : String} {r : Term} {pos : Pos} {y : String} (hy : y ≠ x) :
      Avoids x r (.var pos y) (.var pos y)
  | num {x : String} {r : Term} {pos : Pos} {n : Int} : Avoids x r (.num pos n) (.num pos n)
  | app {x : String} {r : Term} {pos : Pos} {f f' a a' : Term} (hf : Avoids x r f f')
      (ha : Avoids x r a a') : Avoids x r (.app pos f a) (.app pos f' a')
  | add {x : String} {r : Term} {pos : Pos} {l l' e e' : Term} (hl : Avoids x r l l')
      (he : Avoids x r e e') : Avoids x r (.add pos l e) (.add pos l' e')
  | shadowed {x : String} {r : Term} {pos : Pos} {b : Term} :
      Avoids x r (.abs pos x b) (.abs pos x b)
  | kept {x : String} {r : Term} {pos : Pos} {y : String} {b b' : Term} (hy : y ≠ x)
      (harmless : ¬ (r.IsFree y ∧ b.IsFree x)) (hb : Avoids x r b b') :
      Avoids x r (.abs pos y b) (.abs pos y b')
  | renamed {x : String} {r : Term} {pos : Pos} {y : String} {b b₁ b₂ : Term}
      {rs bs : List String} (hy : y ≠ x) (hr : r.free = .ok rs) (hb : b.free = .ok bs)
      (captures : y ∈ rs ∧ x ∈ bs)
      (rename : Avoids y (.var pos (freshName (rs ++ bs) y)) b b₁) (replace : Avoids x r b₁ b₂) :
      Avoids x r (.abs pos y b) (.abs pos (freshName (rs ++ bs) y) b₂)

namespace Avoids

variable {x : String} {r e t : Term}

theorem wellFormed (h : Avoids x r e t) (hr : r.WellFormed) (he : e.WellFormed) :
    t.WellFormed := by
  induction h with
  | hit => exact hr
  | miss | num => trivial
  | app _ _ ihf iha => exact ⟨ihf hr he.1, iha hr he.2⟩
  | add _ _ ihl ihe => exact ⟨ihl hr he.1, ihe hr he.2⟩
  | shadowed => exact he
  | kept _ _ _ ih => exact ih hr he
  | renamed _ _ _ _ _ _ ih₁ ih₂ => exact ih₂ hr (ih₁ trivial he)

/-- A replacement that is a leaf keeps the height, so that a renamed body is within reach of the
bound that its binder had. -/
theorem height_eq (h : Avoids x r e t) (hr : r.height = 0) : t.height = e.height := by
  induction h with
  | hit => exact hr
  | miss | num | shadowed => rfl
  | app _ _ ihf iha => simp only [height, ihf hr, iha hr]
  | add _ _ ihl ihe => simp only [height, ihl hr, ihe hr]
  | kept _ _ _ ih => simp only [height, ih hr]
  | renamed _ _ _ _ _ _ ih₁ ih₂ => simp only [height, ih₂ hr, ih₁ rfl]

end Avoids

theorem taken?_eq {x y : String} {r b : Term} {rs bs : List String} (hr : r.free = .ok rs)
    (hb : b.free = .ok bs) :
    taken? x r y b = .ok (if y ∈ rs ∧ x ∈ bs then some (rs ++ bs) else none) := by
  by_cases hy : y ∈ rs <;> by_cases hx : x ∈ bs <;>
    simp [taken?, hr, hb, hy, hx, bind, Except.bind, pure, Except.pure]

theorem exists_substWithin_var (n : Nat) (x : String) (r : Term) (pos : Pos) (y : String) :
    ∃ t, substWithin n x r (.var pos y) = .ok t ∧ Avoids x r (.var pos y) t := by
  have h : substWithin n x r (.var pos y) = subst x r (.var pos y) := by cases n <;> rfl
  rw [h]
  by_cases hy : y = x
  · subst hy
    exact ⟨r, by simp [subst], .hit⟩
  · exact ⟨.var pos y, by simp [subst, hy], .miss hy⟩

theorem exists_substWithin (n : Nat) (x : String) (r e : Term) (hr : r.WellFormed)
    (he : e.WellFormed) (hn : e.height ≤ n) :
    ∃ t, substWithin n x r e = .ok t ∧ Avoids x r e t := by
  induction n generalizing x r e with
  | zero =>
    cases e with
    | var pos y => exact exists_substWithin_var _ x r pos y
    | num pos k => exact ⟨.num pos k, rfl, .num⟩
    | atom => exact he.elim
    | app | abs | add => exact absurd hn (Nat.not_succ_le_zero _)
  | succ n ih =>
    cases e with
    | var pos y => exact exists_substWithin_var _ x r pos y
    | num pos k => exact ⟨.num pos k, rfl, .num⟩
    | atom => exact he.elim
    | app pos f a =>
      simp only [height] at hn
      obtain ⟨f', hf, af⟩ := ih x r f hr he.1 (by omega)
      obtain ⟨a', ha, aa⟩ := ih x r a hr he.2 (by omega)
      exact ⟨.app pos f' a', by simp [substWithin, hf, ha, bind, Except.bind, pure, Except.pure],
        .app af aa⟩
    | add pos l e =>
      simp only [height] at hn
      obtain ⟨l', hl, al⟩ := ih x r l hr he.1 (by omega)
      obtain ⟨e', he', ae⟩ := ih x r e hr he.2 (by omega)
      exact ⟨.add pos l' e', by simp [substWithin, hl, he', bind, Except.bind, pure, Except.pure],
        .add al ae⟩
    | abs pos y b =>
      have hbn : b.height ≤ n := Nat.le_of_succ_le_succ hn
      by_cases hy : y = x
      · subst hy
        exact ⟨.abs pos y b, by simp [substWithin], .shadowed⟩
      obtain ⟨rs, hrs⟩ := exists_free hr
      obtain ⟨bs, hbs⟩ := exists_free (e := b) he
      by_cases hc : y ∈ rs ∧ x ∈ bs
      · obtain ⟨b₁, hb₁, a₁⟩ := ih y (.var pos (freshName (rs ++ bs) y)) b trivial he hbn
        obtain ⟨b₂, hb₂, a₂⟩ := ih x r b₁ hr (a₁.wellFormed trivial he) (a₁.height_eq rfl ▸ hbn)
        refine ⟨.abs pos (freshName (rs ++ bs) y) b₂, ?_, .renamed hy hrs hbs hc a₁ a₂⟩
        simp [substWithin, hy, taken?_eq hrs hbs, hc, hb₁, hb₂, bind, Except.bind, pure,
          Except.pure]
      · obtain ⟨b', hb', a'⟩ := ih x r b hr he hbn
        refine ⟨.abs pos y b', ?_, .kept hy ?_ a'⟩
        · simp [substWithin, hy, taken?_eq hrs hbs, hc, hb', bind, Except.bind, pure, Except.pure]
        · rwa [isFree_iff_mem hrs, isFree_iff_mem hbs]

/-- Capture-avoiding substitution in a term without atoms ends, and by the rules. -/
theorem exists_avoids (x : String) {r e : Term} (hr : r.WellFormed) (he : e.WellFormed) :
    ∃ t, substAvoiding x r e = .ok t ∧ Avoids x r e t :=
  exists_substWithin e.height x r e hr he (Nat.le_refl _)

/-! ## The form of the result -/

theorem under_update_self (φ : Reading) (x : String) (s : Nameless) :
    Reading.under x (update φ x s) = φ.under x := by
  funext z
  by_cases hz : z = x
  · simp [Reading.under, hz]
  · simp [Reading.under, hz]

/-- **Substitution lemma.** -/
theorem Avoids.read {x : String} {r e t : Term} (h : Avoids x r e t) (hr : r.WellFormed)
    (he : e.WellFormed) (φ : Reading) : t.read φ = e.read (update φ x (r.read φ)) := by
  induction h generalizing φ with
  | hit => simp [Term.read]
  | miss hy => simp [Term.read, hy]
  | num => rfl
  | app _ _ ihf iha => simp only [Term.read, ihf hr he.1, iha hr he.2]
  | add _ _ ihl ihe => simp only [Term.read, ihl hr he.1, ihe hr he.2]
  | shadowed => simp only [Term.read, under_update_self]
  | @kept x r pos y b b' hy harmless _ ih =>
    simp only [Term.read, ih hr he]
    congr 1
    refine read_congr he fun z hz => ?_
    by_cases hzx : z = x
    · subst hzx
      have hry : ¬ r.IsFree y := fun h => harmless ⟨h, hz⟩
      simp [Reading.under, Ne.symm hy, read_under hr hry]
    · by_cases hzy : z = y <;> simp [Reading.under, hzx, hzy, hy]
  | @renamed x r pos y b b₁ b₂ rs bs hy hrs hbs captures rename _ ih₁ ih₂ =>
    -- The new name is free in neither `r` nor `b`, so reading it as the binder's index changes
    -- neither of them; this is all that is used of it.
    have fresh := freshName_not_mem (rs ++ bs) y
    generalize freshName (rs ++ bs) y = z at *
    rw [List.mem_append, not_or] at fresh
    have hrz : ¬ r.IsFree z := fun h => fresh.1 ((isFree_iff_mem hrs).mp h)
    have hxz : x ≠ z := fun h => fresh.2 (h ▸ captures.2)
    simp only [Term.read, ih₂ hr (rename.wellFormed trivial he), ih₁ trivial he,
      read_under hr hrz]
    congr 1
    refine read_congr he fun u hu => ?_
    have huz : u ≠ z := fun h => fresh.2 (h ▸ (isFree_iff_mem hbs).mp hu)
    by_cases huy : u = y
    · simp [Reading.under, huy, Ne.symm hxz]
    · by_cases hux : u = x
      · subst hux
        simp [Reading.under, huy]
      · simp [Reading.under, huy, hux, huz]

/-- Capture-avoiding substitution replaces a free name in the nameless form. -/
theorem nameless_substAvoiding (x : String) {r e : Term} (hr : r.WellFormed)
    (he : e.WellFormed) :
    ∃ t, substAvoiding x r e = .ok t ∧ t.nameless = e.nameless.replace x r.nameless := by
  obtain ⟨t, ht, ha⟩ := exists_avoids x hr he
  refine ⟨t, ht, ?_⟩
  rw [nameless_replace, nameless_eq_read t, nameless_eq_read r]
  exact ha.read hr he Nameless.free

/-- Two nested binders, the inner one with the name that the outer one gets: both are renamed. -/
theorem nameless_substAvoiding_nested :
    let r : Term := .var ⟨1, 1⟩ "y"
    let e : Term := .abs ⟨0, 0⟩ "y" (.abs ⟨0, 1⟩ "y'"
      (.app ⟨0, 2⟩ (.app ⟨0, 3⟩ (.var ⟨0, 4⟩ "x") (.var ⟨0, 5⟩ "y")) (.var ⟨0, 6⟩ "y'")))
    r.WellFormed ∧ e.WellFormed ∧ ∃ t, substAvoiding "x" r e = .ok t ∧
      t.nameless = .abs (.abs (.app (.app (.free "y") (.bound 1)) (.bound 0))) := by
  intro r e
  have hr : r.WellFormed := by decide
  have he : e.WellFormed := by decide
  obtain ⟨t, ht, hform⟩ := nameless_substAvoiding "x" hr he
  exact ⟨hr, he, t, ht, hform.trans (by decide)⟩

end EffectCalculus.Term
