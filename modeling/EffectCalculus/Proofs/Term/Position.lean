import EffectCalculus.Proofs.Term.Scope
import EffectCalculus.Term.Avoiding

/-!
# Positions

Positions are carried along by substitution and never looked at.

* `mapPos`, `bare`: a term with other positions, and with none;
* `freeVars_mapPos`: free variables do not depend on positions;
* `subst_mapPos`, `substViaReader_mapPos`, `substAvoiding_mapPos`: substituting and changing
  positions can be exchanged;
* `same_of_bare_eq`, `bare_eq_of_same`: terms with one bare form are equal up to positions, and the
  other way round;
* `bare_eq_abs`, `bare_eq_app`, …: terms with the bare form of a given term are built alike.
-/

namespace EffectCalculus.Term

/-- The term with `f` applied to every position in it. -/
def mapPos (f : Pos → Pos) : Term → Term
  | .var pos x => .var (f pos) x
  | .app pos fn a => .app (f pos) (fn.mapPos f) (a.mapPos f)
  | .abs pos x b => .abs (f pos) x (b.mapPos f)
  | .num pos n => .num (f pos) n
  | .add pos l r => .add (f pos) (l.mapPos f) (r.mapPos f)
  | .atom a => .atom a

/-- The term without its positions. -/
def bare (e : Term) : Term := e.mapPos fun _ => Pos.none

theorem mapPos_id (e : Term) : e.mapPos id = e := by
  induction e with
  | var | num | atom => rfl
  | app pos fn a ihf iha => simp only [mapPos, ihf, iha, id]
  | abs pos x b ih => simp only [mapPos, ih, id]
  | add pos l r ihl ihr => simp only [mapPos, ihl, ihr, id]

theorem wellFormed_mapPos (f : Pos → Pos) (e : Term) :
    (e.mapPos f).WellFormed ↔ e.WellFormed := by
  induction e with
  | var | num | atom => exact Iff.rfl
  | app pos fn a ihf iha => simp only [mapPos, WellFormed, ihf, iha]
  | abs pos x b ih => simp only [mapPos, WellFormed, ih]
  | add pos l r ihl ihr => simp only [mapPos, WellFormed, ihl, ihr]

theorem wellFormed_of_bare_eq {t e : Term} (h : t.bare = e.bare) (he : e.WellFormed) :
    t.WellFormed := by
  rw [← wellFormed_mapPos fun _ => Pos.none]
  change t.bare.WellFormed
  rw [h]
  exact (wellFormed_mapPos _ e).mpr he

theorem subst_mapPos (f : Pos → Pos) (x : String) (r e : Term) :
    subst x (r.mapPos f) (e.mapPos f) = (subst x r e).map (mapPos f) := by
  induction e with
  | var pos y => by_cases h : y = x <;> simp [subst, mapPos, Except.map, h]
  | num | atom => rfl
  | app pos fn a ihf iha =>
    cases hf : subst x r fn <;> cases ha : subst x r a <;>
      simp [subst, mapPos, ihf, iha, hf, ha, bind, Except.bind, pure, Except.pure, Except.map]
  | abs pos y b ih =>
    by_cases h : y = x
    · simp [subst, mapPos, Except.map, h]
    · cases hb : subst x r b <;>
        simp [subst, mapPos, h, ih, hb, bind, Except.bind, pure, Except.pure, Except.map]
  | add pos l e ihl ihe =>
    cases hl : subst x r l <;> cases he : subst x r e <;>
      simp [subst, mapPos, ihl, ihe, hl, he, bind, Except.bind, pure, Except.pure, Except.map]

/-! ## Free variables and the other substitutions -/

theorem free_mapPos (f : Pos → Pos) (e : Term) : (e.mapPos f).free = e.free := by
  induction e with
  | var | num | atom => rfl
  | app pos fn a ihf iha => simp only [mapPos, free, ihf, iha]
  | abs pos x b ih => simp only [mapPos, free, ih]
  | add pos l r ihl ihr => simp only [mapPos, free, ihl, ihr]

theorem freeVars_mapPos (f : Pos → Pos) (e : Term) : (e.mapPos f).freeVars = e.freeVars := by
  rw [freeVars, freeVars, free_mapPos]

theorem height_mapPos (f : Pos → Pos) (e : Term) : (e.mapPos f).height = e.height := by
  induction e with
  | var | num | atom => rfl
  | app pos fn a ihf iha => simp only [mapPos, height, ihf, iha]
  | abs pos x b ih => simp only [mapPos, height, ih]
  | add pos l r ihl ihr => simp only [mapPos, height, ihl, ihr]

/-- The names to avoid are the same, so a binder is renamed or not, and to the same name. -/
theorem taken?_mapPos (f : Pos → Pos) (x : String) (r : Term) (y : String) (b : Term) :
    taken? x (r.mapPos f) y (b.mapPos f) = taken? x r y b := by
  simp only [taken?, free_mapPos]

theorem substWithin_mapPos (f : Pos → Pos) (n : Nat) (x : String) (r e : Term) :
    substWithin n x (r.mapPos f) (e.mapPos f) = (substWithin n x r e).map (mapPos f) := by
  induction n generalizing x r e with
  | zero => cases e <;> exact subst_mapPos f x r _
  | succ n ih =>
    cases e with
    | var | num | atom => exact subst_mapPos f x r _
    | app pos fn a =>
      cases hf : substWithin n x r fn <;> cases ha : substWithin n x r a <;>
        simp [substWithin, mapPos, ih, hf, ha, bind, Except.bind, pure, Except.pure, Except.map]
    | add pos l e =>
      cases hl : substWithin n x r l <;> cases he : substWithin n x r e <;>
        simp [substWithin, mapPos, ih, hl, he, bind, Except.bind, pure, Except.pure, Except.map]
    | abs pos y b =>
      by_cases hy : y = x
      · simp [substWithin, mapPos, hy, Except.map]
      -- A renamed variable gets the position of its binder, which is moved along.
      have hrename : ∀ z, substWithin n y (.var (f pos) z) (b.mapPos f) =
          (substWithin n y (.var pos z) b).map (mapPos f) := fun z => ih y (.var pos z) b
      cases ht : taken? x r y b with
      | error err =>
        simp [substWithin, mapPos, hy, taken?_mapPos, ht, bind, Except.bind, Except.map]
      | ok taken? =>
        cases taken? with
        | none =>
          cases hb : substWithin n x r b <;>
            simp [substWithin, mapPos, hy, taken?_mapPos, ht, ih, hb, bind, Except.bind, pure,
              Except.pure, Except.map]
        | some taken =>
          cases hb : substWithin n y (.var pos (freshName taken y)) b with
          | error err =>
            simp [substWithin, mapPos, hy, taken?_mapPos, ht, hrename, hb, bind, Except.bind,
              Except.map]
          | ok b₁ =>
            cases hb₁ : substWithin n x r b₁ <;>
              simp [substWithin, mapPos, hy, taken?_mapPos, ht, hrename, hb, ih, hb₁, bind,
                Except.bind, pure, Except.pure, Except.map]

theorem substAvoiding_mapPos (f : Pos → Pos) (x : String) (r e : Term) :
    substAvoiding x (r.mapPos f) (e.mapPos f) = (substAvoiding x r e).map (mapPos f) := by
  rw [substAvoiding, substAvoiding, height_mapPos, substWithin_mapPos]

/-- The reader of a term without atoms does what plain substitution does. -/
theorem substReader_eq {e : Term} (he : e.WellFormed) :
    e.substReader = .ok fun p => subst p.1 p.2 e := by
  induction e with
  | var pos y => simp only [substReader, subst, eq_comm]
  | num => rfl
  | atom => exact he.elim
  | abs pos y b ih => simp only [substReader, subst, ih he, eq_comm, bind, Except.bind]
  | app pos fn a ihf iha => simp only [substReader, subst, ihf he.1, iha he.2]; rfl
  | add pos l r ihl ihr => simp only [substReader, subst, ihl he.1, ihr he.2]; rfl

theorem substViaReader_eq_subst (x : String) (r : Term) {e : Term} (he : e.WellFormed) :
    substViaReader x r e = subst x r e := by
  rw [substViaReader, substReader_eq he]
  rfl

theorem substViaReader_mapPos (f : Pos → Pos) (x : String) (r : Term) {e : Term}
    (he : e.WellFormed) :
    substViaReader x (r.mapPos f) (e.mapPos f) = (substViaReader x r e).map (mapPos f) := by
  rw [substViaReader_eq_subst x _ ((wellFormed_mapPos f e).mpr he), substViaReader_eq_subst x r he,
    subst_mapPos]

/-! ## Equality up to positions -/

theorem same_of_bare_eq {t e : Term} (h : t.bare = e.bare) : t.same e = true := by
  induction t generalizing e with
  | var pos x => cases e <;> simp_all [bare, mapPos, same]
  | num pos n => cases e <;> simp_all [bare, mapPos, same]
  | atom a =>
    cases e with
    | atom b =>
      cases h
      exact a.same_refl
    | _ => cases h
  | app pos f a ihf iha =>
    cases e with
    | app pos' f' a' =>
      simp only [bare, mapPos, app.injEq] at h
      simp only [same, ihf h.2.1, iha h.2.2, Bool.and_self]
    | _ => cases h
  | abs pos x b ih =>
    cases e with
    | abs pos' y b' =>
      simp only [bare, mapPos, abs.injEq] at h
      simp [same, h.2.1, ih h.2.2]
    | _ => cases h
  | add pos l r ihl ihr =>
    cases e with
    | add pos' l' r' =>
      simp only [bare, mapPos, add.injEq] at h
      simp only [same, ihl h.2.1, ihr h.2.2, Bool.and_self]
    | _ => cases h

theorem bare_eq_of_same {t e : Term} (ht : t.WellFormed) (h : t.same e = true) :
    t.bare = e.bare := by
  induction t generalizing e with
  | var pos x => cases e <;> simp_all [bare, mapPos, same]
  | num pos n => cases e <;> simp_all [bare, mapPos, same]
  | atom => exact ht.elim
  | app pos f a ihf iha =>
    cases e with
    | app pos' f' a' =>
      simp only [same, Bool.and_eq_true] at h
      change app Pos.none f.bare a.bare = app Pos.none f'.bare a'.bare
      rw [ihf ht.1 h.1, iha ht.2 h.2]
    | _ => cases h
  | abs pos x b ih =>
    cases e with
    | abs pos' y b' =>
      simp only [same, Bool.and_eq_true, decide_eq_true_eq] at h
      change abs Pos.none x b.bare = abs Pos.none y b'.bare
      rw [h.1, ih ht h.2]
    | _ => cases h
  | add pos l r ihl ihr =>
    cases e with
    | add pos' l' r' =>
      simp only [same, Bool.and_eq_true] at h
      change add Pos.none l.bare r.bare = add Pos.none l'.bare r'.bare
      rw [ihl ht.1 h.1, ihr ht.2 h.2]
    | _ => cases h

/-! ## Terms of one form -/

variable {t f a b l r : Term} {pos : Pos}

theorem bare_eq_num {n : Int} (h : t.bare = (num pos n).bare) : ∃ q, t = .num q n := by
  cases t with
  | num q m =>
    cases h
    exact ⟨q, rfl⟩
  | _ => cases h

theorem bare_eq_abs {x : String} (h : t.bare = (abs pos x b).bare) :
    ∃ q c, t = .abs q x c ∧ c.bare = b.bare := by
  cases t with
  | abs q y c =>
    simp only [bare, mapPos, abs.injEq] at h
    obtain ⟨-, rfl, hc⟩ := h
    exact ⟨q, c, rfl, hc⟩
  | _ => cases h

theorem bare_eq_app (h : t.bare = (app pos f a).bare) :
    ∃ q f' a', t = .app q f' a' ∧ f'.bare = f.bare ∧ a'.bare = a.bare := by
  cases t with
  | app q f' a' =>
    simp only [bare, mapPos, app.injEq] at h
    exact ⟨q, f', a', rfl, h.2.1, h.2.2⟩
  | _ => cases h

theorem bare_eq_add (h : t.bare = (add pos l r).bare) :
    ∃ q l' r', t = .add q l' r' ∧ l'.bare = l.bare ∧ r'.bare = r.bare := by
  cases t with
  | add q l' r' =>
    simp only [bare, mapPos, add.injEq] at h
    exact ⟨q, l', r', rfl, h.2.1, h.2.2⟩
  | _ => cases h

/-- Substitution in terms of one bare form gives terms of one bare form. -/
theorem subst_of_bare_eq {x : String} {r r' e e' u : Term} (hr : r'.bare = r.bare)
    (he : e'.bare = e.bare) (h : subst x r e = .ok u) :
    ∃ u', subst x r' e' = .ok u' ∧ u'.bare = u.bare := by
  have h₁ : subst x r.bare e.bare = .ok u.bare := by
    rw [bare, bare, subst_mapPos, h]
    rfl
  have h₂ : (subst x r' e').map bare = .ok u.bare := by
    have hmap := subst_mapPos (fun _ => Pos.none) x r' e'
    change subst x r'.bare e'.bare = (subst x r' e').map bare at hmap
    rw [← hmap, hr, he, h₁]
  cases hs : subst x r' e' with
  | error err =>
    rw [hs] at h₂
    cases h₂
  | ok u' =>
    rw [hs] at h₂
    exact ⟨u', rfl, Except.ok.inj h₂⟩

end EffectCalculus.Term
