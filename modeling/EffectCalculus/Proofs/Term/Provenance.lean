import EffectCalculus.Proofs.Term.Avoiding
import EffectCalculus.Proofs.Term.Fill
import EffectCalculus.Proofs.Term.Place

/-!
# Provenance of positions

Capture-avoiding substitution renames a binder by substituting a variable made for it, and this
variable carries the position of the binder. So the nodes of the result keep the positions that they
had in the term, all but the occurrences of a renamed binder, which are moved to the binder.

* `Fate`, `Becomes`: what an occurrence becomes, and what a whole term then becomes;
* `Becomes.trans`: renaming a binder and then replacing below it is one such change;
* `Avoids.becomes`: **capture-avoiding substitution replaces the name and moves what it renames**;
* `gathered`: the term with those occurrences moved that a result has under another name;
* `substAvoiding_positions`: the positions of the result, and when they are those of plain
  substitution;
* `substAvoiding_moves_occurrence`: a term for which they are not.
-/

namespace EffectCalculus.Term

/-! ## Fates -/

/-- What a free occurrence becomes, by its name and its position. -/
abbrev Fate := String → Pos → Term

namespace Fate

def stay : Fate := fun u p => .var p u

def replace (x : String) (r : Term) : Fate := fun u p => if u = x then r else .var p u

/-- The fates below a binder at `q` that goes from the name `y` to `z`. -/
def below (φ : Fate) (q : Pos) (y z : String) : Fate := fun u p =>
  if u = y then .var (if z = y then p else q) z else φ u p

variable {φ : Fate} {q : Pos} {u x y z : String}

theorem below_self (p : Pos) : φ.below q y z y p = .var (if z = y then p else q) z := by
  simp [below]

theorem below_of_ne (h : u ≠ y) (p : Pos) : φ.below q y z u p = φ u p := by
  simp [below, h]

theorem stay_below : stay.below q y y = stay := by
  funext u p
  by_cases h : u = y <;> simp [below, stay, h]

theorem replace_below_self (r : Term) : (replace x r).below q x x = stay := by
  funext u p
  by_cases h : u = x <;> simp [below, stay, replace, h]

theorem replace_below (h : y ≠ x) (r : Term) : (replace x r).below q y y = replace x r := by
  funext u p
  by_cases hu : u = y
  · simp [below, replace, hu, h]
  · simp [below, hu]

end Fate

/-- `Becomes φ e t`: with the free occurrences going the way of `φ` the term `e` becomes `t`. All
other nodes keep their positions. A binder may get a longer name, which then has to be clear of what
stands free below it. -/
inductive Becomes : Fate → Term → Term → Prop
  | var {φ : Fate} {pos : Pos} {x : String} {t : Term} (ht : t = φ x pos) :
      Becomes φ (.var pos x) t
  | num {φ : Fate} {pos : Pos} {n : Int} : Becomes φ (.num pos n) (.num pos n)
  | app {φ : Fate} {pos : Pos} {f f' a a' : Term} (hf : Becomes φ f f') (ha : Becomes φ a a') :
      Becomes φ (.app pos f a) (.app pos f' a')
  | add {φ : Fate} {pos : Pos} {l l' r r' : Term} (hl : Becomes φ l l') (hr : Becomes φ r r') :
      Becomes φ (.add pos l r) (.add pos l' r')
  | abs {φ : Fate} {pos : Pos} {y z : String} {b b' : Term}
      (longer : z = y ∨ y.length < z.length)
      (clear : ∀ u p, b.IsFree u → u ≠ y → ¬ (φ u p).IsFree z)
      (hb : Becomes (φ.below pos y z) b b') : Becomes φ (.abs pos y b) (.abs pos z b')

namespace Becomes

variable {φ ψ χ : Fate} {e t s : Term} {v w : String}

theorem wellFormed (h : Becomes φ e t) : e.WellFormed := by
  induction h with
  | var | num => trivial
  | app _ _ ihf iha => exact ⟨ihf, iha⟩
  | add _ _ ihl ihr => exact ⟨ihl, ihr⟩
  | abs _ _ _ ih => exact ih

theorem stay (he : e.WellFormed) : Becomes Fate.stay e e := by
  induction e with
  | var => exact .var rfl
  | num => exact .num
  | atom => exact he.elim
  | app pos f a ihf iha => exact .app (ihf he.1) (iha he.2)
  | add pos l r ihl ihr => exact .add (ihl he.1) (ihr he.2)
  | abs pos y b ih =>
    refine .abs (.inl rfl) (fun u p _ hu => ?_) ?_
    · rw [Fate.stay, isFree_var]
      exact Ne.symm hu
    · rw [Fate.stay_below]
      exact ih he

/-- A variable that is renamed is free under its new name. -/
theorem isFree (h : Becomes φ e t) (ht : t.WellFormed) (hw : e.IsFree w)
    (hv : ∀ p, ∃ p', φ w p = .var p' v) : t.IsFree v := by
  induction h with
  | @var φ pos x t heq =>
    obtain rfl := isFree_var.mp hw
    obtain ⟨p', hp'⟩ := hv pos
    rw [heq, hp', isFree_var]
  | num => exact absurd hw not_isFree_num
  | app hf ha ihf iha =>
    rw [isFree_app hf.wellFormed ha.wellFormed] at hw
    rw [isFree_app ht.1 ht.2]
    exact hw.imp (ihf ht.1 · hv) (iha ht.2 · hv)
  | add hl hr ihl ihr =>
    rw [isFree_add hl.wellFormed hr.wellFormed] at hw
    rw [isFree_add ht.1 ht.2]
    exact hw.imp (ihl ht.1 · hv) (ihr ht.2 · hv)
  | @abs φ pos y z b b' _ clear _ ih =>
    obtain ⟨hw, hwy⟩ := isFree_abs.mp hw
    refine isFree_abs.mpr ⟨ih ht hw fun p => ?_, ?_⟩
    · rw [Fate.below_of_ne hwy]
      exact hv p
    · rintro rfl
      obtain ⟨p', hp'⟩ := hv pos
      exact clear w pos hw hwy (hp' ▸ isFree_var.mpr rfl)

/-- One change after another, the first of which renames what is free. A binder that is renamed once
or twice ends with a longer name, so its occurrences are moved to it in each case. -/
theorem trans (h₁ : Becomes φ e t) (h₂ : Becomes ψ t s)
    (hχ : ∀ w, e.IsFree w → ∃ v, ∀ p, ∃ p', φ w p = .var p' v ∧ χ w p = ψ v p') :
    Becomes χ e s := by
  induction h₁ generalizing ψ χ s with
  | @var φ pos x t heq =>
    obtain ⟨v, hv⟩ := hχ x (isFree_var.mpr rfl)
    obtain ⟨p', hφ, hχ⟩ := hv pos
    rw [heq, hφ] at h₂
    cases h₂ with
    | var hs => exact .var (hs.trans hχ.symm)
  | num =>
    cases h₂
    exact .num
  | app hf ha ihf iha =>
    cases h₂ with
    | app hf' ha' =>
      simp only [isFree_app hf.wellFormed ha.wellFormed] at hχ
      exact .app (ihf hf' fun w hw => hχ w (.inl hw)) (iha ha' fun w hw => hχ w (.inr hw))
  | add hl hr ihl ihr =>
    cases h₂ with
    | add hl' hr' =>
      simp only [isFree_add hl.wellFormed hr.wellFormed] at hχ
      exact .add (ihl hl' fun w hw => hχ w (.inl hw)) (ihr hr' fun w hw => hχ w (.inr hw))
  | @abs φ pos y y' b b' longer clear hb ih =>
    cases h₂ with
    | @abs _ _ _ y'' _ b'' longer' clear' hb' =>
      -- A variable free below both binders goes from `u` to `v`, and neither rename catches it.
      have outer : ∀ u, b.IsFree u → u ≠ y → ∃ v, v ≠ y' ∧ b'.IsFree v ∧
          ∀ p, ∃ p', φ u p = .var p' v ∧ χ u p = ψ v p' := by
        intro u hu huy
        obtain ⟨v, hv⟩ := hχ u (isFree_abs.mpr ⟨hu, huy⟩)
        refine ⟨v, ?_, hb.isFree hb'.wellFormed hu fun p => ?_, hv⟩
        · rintro rfl
          obtain ⟨p', hφ, -⟩ := hv pos
          exact clear u pos hu huy (hφ ▸ isFree_var.mpr rfl)
        · rw [Fate.below_of_ne huy]
          exact (hv p).imp fun _ => And.left
      refine .abs (by grind) (fun u p hu huy => ?_) (ih hb' fun u hu => ?_)
      · obtain ⟨v, hvy, hfree, hv⟩ := outer u hu huy
        obtain ⟨p', -, hχ⟩ := hv p
        rw [hχ]
        exact clear' v p' hfree hvy
      · by_cases huy : u = y
        · subst huy
          refine ⟨y', fun p => ⟨_, Fate.below_self p, ?_⟩⟩
          rw [Fate.below_self, Fate.below_self]
          grind
        · obtain ⟨v, hvy, -, hv⟩ := outer u hu huy
          refine ⟨v, ?_⟩
          simpa only [Fate.below_of_ne huy, Fate.below_of_ne hvy] using hv

end Becomes

/-- **Capture-avoiding substitution replaces the name and moves what it renames.** -/
theorem Avoids.becomes {x : String} {r e t : Term} (h : Avoids x r e t) (he : e.WellFormed) :
    Becomes (Fate.replace x r) e t := by
  induction h with
  | hit => exact .var (by simp [Fate.replace])
  | miss hy => exact .var (by simp [Fate.replace, hy])
  | num => exact .num
  | app _ _ ihf iha => exact .app (ihf he.1) (iha he.2)
  | add _ _ ihl ihe => exact .add (ihl he.1) (ihe he.2)
  | @shadowed x r pos b =>
    refine .abs (.inl rfl) (fun u p _ hu => ?_) ?_
    · simp [Fate.replace, hu, Ne.symm hu]
    · rw [Fate.replace_below_self]
      exact .stay he
  | @kept x r pos y b b' hy harmless _ ih =>
    refine .abs (.inl rfl) (fun u p hu huy => ?_) ?_
    · by_cases hux : u = x
      · subst hux
        simpa [Fate.replace] using fun hry => harmless ⟨hry, hu⟩
      · simp [Fate.replace, hux, Ne.symm huy]
    · rw [Fate.replace_below hy]
      exact ih he
  | @renamed x r pos y b b₁ b₂ rs bs hy hrs hbs captures rename _ ih₁ ih₂ =>
    have fresh := freshName_not_mem (rs ++ bs) y
    have longer := length_lt_freshName (rs ++ bs) y
    generalize freshName (rs ++ bs) y = z at *
    rw [List.mem_append, not_or] at fresh
    have hzx : z ≠ x := fun h => fresh.2 (h ▸ captures.2)
    have hzy : z ≠ y := fun h => Nat.ne_of_gt longer (congrArg String.length h)
    -- The body is changed twice: `y` becomes the variable made at the binder, and then `x` becomes
    -- `r`. The new name is neither, so both changes together are the one below the binder.
    have hb := ih₂ (rename.wellFormed trivial he)
    refine .abs (.inr longer) (fun u p hu huy => ?_) ((ih₁ he).trans hb fun u hu => ?_)
    · by_cases hux : u = x
      · simpa [Fate.replace, hux, isFree_iff_mem hrs] using fresh.1
      · have huz : z ≠ u := fun h => fresh.2 (h ▸ (isFree_iff_mem hbs).mp hu)
        simpa [Fate.replace, hux] using huz
    · by_cases huy : u = y
      · subst huy
        refine ⟨z, fun p => ⟨pos, by simp [Fate.replace], ?_⟩⟩
        simp [Fate.below_self, Fate.replace, hzx, hzy]
      · exact ⟨u, fun p => ⟨p, by simp [Fate.replace, huy], Fate.below_of_ne huy p⟩⟩

/-! ## Positions -/

/-- Where a free occurrence is put, by its name and its position. -/
abbrev Home := String → Pos → Pos

/-- Below a binder at `q` that goes from the name `y` to `z`. -/
def Home.below (home : Home) (q : Pos) (y z : String) : Home := fun u p =>
  if u = y then if z = y then p else q else home u p

/-- The term with its occurrences put where they belong, those of a binder that has another name in
`t` to the binder. -/
def gather : Home → Term → (t : Term) → Term
  | home, .var pos x, _ => .var (home x pos) x
  | home, .app pos f a, .app _ f' a' => .app pos (gather home f f') (gather home a a')
  | home, .abs pos y b, .abs _ z b' => .abs pos y (gather (home.below pos y z) b b')
  | home, .add pos l r, .add _ l' r' => .add pos (gather home l l') (gather home r r')
  | _, e, _ => e

/-- The term with the occurrences of each binder that has another name in `t` moved to the binder,
and nothing else changed. -/
def gathered (e t : Term) : Term := gather (fun _ pos => pos) e t

theorem wellFormed_gather {e : Term} (he : e.WellFormed) (home : Home) (t : Term) :
    (gather home e t).WellFormed := by
  induction e generalizing home t with
  | var | num => trivial
  | atom => exact he.elim
  | app pos f a ihf iha =>
    cases t with
    | app _ f' a' => exact ⟨ihf he.1 home f', iha he.2 home a'⟩
    | _ => exact he
  | add pos l r ihl ihr =>
    cases t with
    | add _ l' r' => exact ⟨ihl he.1 home l', ihr he.2 home r'⟩
    | _ => exact he
  | abs pos y b ih =>
    cases t with
    | abs _ z b' => exact ih he (home.below pos y z) b'
    | _ => exact he

theorem length_positions_gather (e t : Term) (home : Home) (σ : Filling) :
    ((gather home e t).fill σ).positions.length = (e.fill σ).positions.length := by
  induction e generalizing home t σ with
  | var pos x => cases hx : σ x <;> simp [gather, fill, hx]
  | num | atom => rfl
  | app pos f a ihf iha =>
    cases t with
    | app _ f' a' => simp [gather, fill, ihf, iha]
    | _ => rfl
  | add pos l r ihl ihr =>
    cases t with
    | add _ l' r' => simp [gather, fill, ihl, ihr]
    | _ => rfl
  | abs pos y b ih =>
    cases t with
    | abs _ z b' => simp [gather, fill, ih]
    | _ => rfl

/-- If moving changes no position in a filled term, it changes none in the term, since only
variables that are not filled are moved. -/
theorem gather_eq_of_positions {e t : Term} {home : Home} {σ : Filling}
    (hσ : ∀ x r, σ x = some r → ∀ pos, home x pos = pos)
    (h : ((gather home e t).fill σ).positions = (e.fill σ).positions) : gather home e t = e := by
  induction e generalizing home t σ with
  | var pos x =>
    cases hx : σ x with
    | none => simpa [gather, fill, hx] using h
    | some r => simp only [gather, hσ x r hx]
  | num | atom => rfl
  | app pos f a ihf iha =>
    cases t with
    | app _ f' a' =>
      simp only [gather, fill, positions_app, List.cons.injEq, true_and] at h
      obtain ⟨hf, ha⟩ := List.append_inj h (length_positions_gather f f' home σ)
      simp only [gather, ihf hσ hf, iha hσ ha]
    | _ => rfl
  | add pos l r ihl ihr =>
    cases t with
    | add _ l' r' =>
      simp only [gather, fill, positions_add, List.cons.injEq, true_and] at h
      obtain ⟨hl, hr⟩ := List.append_inj h (length_positions_gather l l' home σ)
      simp only [gather, ihl hσ hl, ihr hσ hr]
    | _ => rfl
  | abs pos y b ih =>
    cases t with
    | abs _ z b' =>
      simp only [gather, fill, positions_abs, List.cons.injEq, true_and] at h
      have hσ' : ∀ x r, σ.without y x = some r → ∀ p, home.below pos y z x p = p := by
        intro x r hx p
        by_cases hxy : x = y
        · simp [Filling.without, hxy] at hx
        · simp only [Filling.without, hxy, ↓reduceIte] at hx
          simp only [Home.below, hxy, ↓reduceIte, hσ x r hx]
      simp only [gather, ih hσ' h]
    | _ => rfl

/-- The positions of what a term becomes are those of the term with its occurrences moved and then
filled, if that is so for a single occurrence. -/
theorem Becomes.positions_eq {φ : Fate} {e t : Term} (h : Becomes φ e t) {home : Home}
    {σ : Filling}
    (hφ : ∀ x pos, (φ x pos).positions = ((Term.var (home x pos) x).fill σ).positions) :
    t.positions = ((gather home e t).fill σ).positions := by
  induction h generalizing home σ with
  | var ht =>
    rw [ht, hφ]
    rfl
  | num => rfl
  | app _ _ ihf iha => simp only [gather, fill, positions_app, ihf hφ, iha hφ]
  | add _ _ ihl ihr => simp only [gather, fill, positions_add, ihl hφ, ihr hφ]
  | @abs φ pos y z b b' _ _ _ ih =>
    have hbelow : ∀ x p, (φ.below pos y z x p).positions =
        ((Term.var (home.below pos y z x p) x).fill (σ.without y)).positions := by
      intro x p
      by_cases hx : x = y
      · simp [hx, Fate.below_self, Home.below, fill, Filling.without]
      · rw [Fate.below_of_ne hx, hφ]
        simp [hx, Home.below, fill, Filling.without]
    simp only [gather, fill, positions_abs, ih hbelow]

/-- **Where capture-avoiding substitution leaves positions.** The result is the term with the name
replaced, in which each node has kept its position but the occurrences of a renamed binder, which
have that of the binder. So its positions are those that plain substitution gives in the term with
these occurrences moved, and those that it gives in the term itself only if there was nothing to
move. -/
theorem substAvoiding_positions (x : String) {r e : Term} (hr : r.WellFormed)
    (he : e.WellFormed) :
    ∃ t t' u, substAvoiding x r e = .ok t ∧ Becomes (Fate.replace x r) e t ∧
      subst x r e = .ok t' ∧ subst x r (e.gathered t) = .ok u ∧ t.positions = u.positions ∧
      (t.positions = t'.positions ↔ e.gathered t = e) := by
  obtain ⟨t, ht, havoids⟩ := exists_avoids x hr he
  have hbecomes := havoids.becomes he
  have hpositions : t.positions = ((e.gathered t).fill (Filling.single x r)).positions := by
    refine hbecomes.positions_eq fun y pos => ?_
    by_cases hy : y = x <;> simp [Fate.replace, fill, Filling.single, hy]
  refine ⟨t, _, _, ht, hbecomes, subst_eq_fill x r he,
    subst_eq_fill x r (wellFormed_gather he _ t), hpositions, ?_, fun h => ?_⟩
  · intro h
    exact gather_eq_of_positions (fun _ _ _ _ => rfl) (hpositions.symm.trans h)
  · rw [hpositions, h]

/-- Renaming the outer binder catches the inner one, which is renamed as well: the one occurrence of
each is moved to it. -/
theorem substAvoiding_positions_nested :
    let r : Term := .var ⟨1, 0⟩ "y"
    let e : Term := .abs ⟨0, 0⟩ "y" (.abs ⟨0, 1⟩ "y'"
      (.app ⟨0, 2⟩ (.app ⟨0, 3⟩ (.var ⟨0, 4⟩ "x") (.var ⟨0, 5⟩ "y")) (.var ⟨0, 6⟩ "y'")))
    let t : Term := .abs ⟨0, 0⟩ "y'" (.abs ⟨0, 1⟩ "y''"
      (.app ⟨0, 2⟩ (.app ⟨0, 3⟩ (.var ⟨1, 0⟩ "y") (.var ⟨0, 0⟩ "y'")) (.var ⟨0, 1⟩ "y''")))
    r.WellFormed ∧ e.WellFormed ∧ substAvoiding "x" r e = .ok t ∧
      ∃ t' u, subst "x" r e = .ok t' ∧ subst "x" r (e.gathered t) = .ok u ∧
        t.positions = u.positions ∧ t.positions ≠ t'.positions := by
  intro r e t
  have hr : r.WellFormed := by decide
  have he : e.WellFormed := by decide
  have ht : substAvoiding "x" r e = .ok t := rfl
  have hmoved : e.gathered t ≠ e := by decide
  obtain ⟨t₁, t', u, ht₁, -, ht', hu, hpositions, hiff⟩ := substAvoiding_positions "x" hr he
  cases ht.symm.trans ht₁
  exact ⟨hr, he, ht, t', u, ht', hu, hpositions, fun h => hmoved (hiff.mp h)⟩

/-- The second summand stands at column 3 of the term and of plain substitution, and is moved to
column 0, where its binder stands. -/
theorem substAvoiding_moves_occurrence :
    let r : Term := .var ⟨1, 0⟩ "y"
    let e : Term := .abs ⟨0, 0⟩ "y" (.add ⟨0, 1⟩ (.var ⟨0, 2⟩ "x") (.var ⟨0, 3⟩ "y"))
    r.WellFormed ∧ e.WellFormed ∧ ∃ t t', substAvoiding "x" r e = .ok t ∧
      subst "x" r e = .ok t' ∧ t.positions = [⟨0, 0⟩, ⟨0, 1⟩, ⟨1, 0⟩, ⟨0, 0⟩] ∧
      t'.positions = [⟨0, 0⟩, ⟨0, 1⟩, ⟨1, 0⟩, ⟨0, 3⟩] ∧ t.positions ≠ t'.positions :=
  ⟨by decide, by decide, _, _, rfl, rfl, rfl, rfl, by decide⟩

end EffectCalculus.Term
