import EffectCalculus.Proofs.Value.Form
import EffectCalculus.Value.Show
import Mathlib.Data.List.Forall2

/-!
# The order of bindings

An environment binds each name once, in some order. The order can be forgotten: what a name is bound
to does not depend on it, and sorting by name brings environments with the same names into step.

* `Value.Keyed`, `Env.Keyed`: no environment inside binds a name twice;
* `Bindings.find?_eq_some_iff`, `Bindings.find?_perm`: what is found then does not depend on the
  order;
* `Value.Reordered`, `Reordered.of_perm`: values that are identical up to the order of bindings
  inside them;
* `names_sortByName_eq`, `Bindings.InStep`: environments with the same names, sorted.
-/

namespace EffectCalculus

/-! ## Bindings without repetition -/

namespace Bindings

variable {α β : Type} {bs bs' : Bindings α} {x : String} {v : α}

instance (bs : Bindings α) : Decidable bs.Distinct := inferInstanceAs (Decidable bs.names.Nodup)

theorem find?_eq_some_iff (h : bs.Distinct) : bs.find? x = some v ↔ (x, v) ∈ bs := by
  refine ⟨mem_of_find?, fun hmem => ?_⟩
  induction bs with
  | nil => cases hmem
  | cons b rest ih =>
    obtain ⟨y, w⟩ := b
    obtain ⟨hy, hrest⟩ := List.nodup_cons.mp (show (y :: names rest).Nodup from h)
    rcases List.mem_cons.mp hmem with heq | hmem
    · cases heq
      simp [find?]
    · have hyx : y ≠ x := by
        rintro rfl
        exact hy (List.mem_map_of_mem hmem)
      simpa [find?, hyx] using ih hrest hmem

theorem find?_perm (h : bs.Perm bs') (hd : bs.Distinct) (x : String) :
    bs.find? x = bs'.find? x := by
  have hd' : bs'.Distinct := (h.map Prod.fst).nodup_iff.mp hd
  ext v
  rw [find?_eq_some_iff hd, find?_eq_some_iff hd', h.mem_iff]

end Bindings

/-! ## Values -/

namespace Value

/-- No environment inside the value binds a name twice: each is a finite map, as all are that begin
with `Bindings.ofList` and grow by `Bindings.extend`. -/
inductive Keyed : Value → Prop
  | num (n : Int) : Keyed (.num n)
  | closure {env : Env} {x : String} {b : Term} (distinct : env.Distinct)
      (bindings : ∀ p ∈ env, Keyed p.2) : Keyed (.closure env x b)
  | atom (a : Atom) : Keyed (.atom a)

/-- The same value, but for the order in which environments inside it bind their names. -/
inductive Reordered : Value → Value → Prop
  | num (n : Int) : Reordered (.num n) (.num n)
  | closure {env env' : Env} {x : String} {b : Term} (names : env.names.Perm env'.names)
      (bindings : ∀ y v v', env.find? y = some v → env'.find? y = some v' → Reordered v v') :
      Reordered (.closure env x b) (.closure env' x b)

theorem WellFormed.reordered {v : Value} (h : v.WellFormed) : v.Reordered v := by
  induction h with
  | num n => exact .num n
  | closure _ _ ih =>
    refine .closure (.refl _) fun y v v' hv hv' => ?_
    cases hv.symm.trans hv'
    exact ih _ (Bindings.mem_of_find? hv)

/-- An environment in another order makes the same closure, reordered. -/
theorem Reordered.of_perm {env env' : Env} (h : env.Perm env') (hd : env.Distinct)
    (hf : Env.WellFormed env) (x : String) (b : Term) :
    (Value.closure env x b).Reordered (.closure env' x b) := by
  refine .closure (h.map Prod.fst) fun y v v' hv hv' => ?_
  rw [← Bindings.find?_perm h hd, hv] at hv'
  cases hv'
  exact (hf.find? hv).reordered

end Value

/-- The environment binds no name twice, nor does one inside it. -/
def Env.Keyed (env : Env) : Prop := env.Distinct ∧ ∀ p ∈ env, p.2.Keyed

namespace Env.Keyed

theorem find? {env : Env} (h : Env.Keyed env) {x : String} {v : Value}
    (hv : env.find? x = some v) : v.Keyed :=
  h.2 _ (Bindings.mem_of_find? hv)

theorem extend {env : Env} (h : Env.Keyed env) (x : String) {v : Value} (hv : v.Keyed) :
    Env.Keyed (env.extend x v) := by
  refine ⟨Bindings.distinct_extend h.1 x v, fun p hp => ?_⟩
  rcases Bindings.mem_extend hp with rfl | hp
  · exact hv
  · exact h.2 p hp

end Env.Keyed

/-! ## Sorting -/

section Sorting

variable {α β : Type}

theorem sortByName_perm (bs : Bindings α) : (sortByName bs).Perm bs := List.mergeSort_perm bs _

theorem sortByName_map (f : α → β) (bs : Bindings α) :
    (sortByName bs).map (fun p => (p.1, f p.2)) = sortByName (bs.map fun p => (p.1, f p.2)) :=
  List.map_mergeSort fun _ _ _ _ => rfl

theorem pairwise_names_sortByName (bs : Bindings α) :
    (Bindings.names (sortByName bs)).Pairwise (· ≤ ·) := by
  have hsorted : (sortByName bs).Pairwise fun p q => decide (p.1 ≤ q.1) = true := by
    apply List.pairwise_mergeSort
    · simpa using fun p _ q _ r _ => String.le_trans
    · simpa using fun p _ q _ => String.le_total p q
  exact List.pairwise_map.mpr (hsorted.imp fun h => of_decide_eq_true h)

/-- Bindings of the same names are sorted into the same order. -/
theorem names_sortByName_eq {bs : Bindings α} {bs' : Bindings β} (h : bs.names.Perm bs'.names) :
    Bindings.names (sortByName bs) = Bindings.names (sortByName bs') := by
  apply List.Perm.eq_of_pairwise (fun _ _ _ _ => String.le_antisymm)
    (pairwise_names_sortByName bs) (pairwise_names_sortByName bs')
  exact ((sortByName_perm bs).map _).trans (h.trans ((sortByName_perm bs').map _).symm)

end Sorting

/-! ## In step -/

/-- Bindings of the same names in the same order, to what `R` relates. -/
abbrev Bindings.InStep {α β : Type} (R : α → β → Prop) : Bindings α → Bindings β → Prop :=
  List.Forall₂ fun p q => p.1 = q.1 ∧ R p.2 q.2

namespace Bindings.InStep

variable {α β : Type} {R : α → β → Prop} {bs : Bindings α} {bs' : Bindings β}

theorem names_eq (h : InStep R bs bs') : bs.names = bs'.names := by
  induction h with
  | nil => rfl
  | cons hpq _ ih => exact List.cons_eq_cons.mpr ⟨hpq.1, ih⟩

theorem find? (h : InStep R bs bs') {y : String} {v : α} {v' : β} (hv : bs.find? y = some v)
    (hv' : bs'.find? y = some v') : R v v' := by
  induction h with
  | nil => cases hv
  | @cons p q _ _ hpq _ ih =>
    obtain ⟨x, u⟩ := p
    obtain ⟨x', u'⟩ := q
    obtain ⟨rfl, hu⟩ : x = x' ∧ R u u' := hpq
    by_cases hx : x = y
    · simp only [Bindings.find?, hx, ↓reduceIte, Option.some.injEq] at hv hv'
      exact hv ▸ hv' ▸ hu
    · simp only [Bindings.find?, hx, ↓reduceIte] at hv hv'
      exact ih hv hv'

theorem of_find? (hd : bs.Distinct) (hnames : bs.names = bs'.names)
    (h : ∀ y v v', bs.find? y = some v → bs'.find? y = some v' → R v v') : InStep R bs bs' := by
  induction bs generalizing bs' with
  | nil =>
    cases bs' with
    | nil => exact .nil
    | cons => cases hnames
  | cons p bs ih =>
    cases bs' with
    | nil => cases hnames
    | cons q bs' =>
      obtain ⟨x, u⟩ := p
      obtain ⟨x', u'⟩ := q
      obtain ⟨rfl, hrest⟩ : x = x' ∧ names bs = names bs' := List.cons.inj hnames
      obtain ⟨hx, hd⟩ := List.nodup_cons.mp (show (x :: names bs).Nodup from hd)
      refine .cons ⟨rfl, h x u u' (by simp [Bindings.find?]) (by simp [Bindings.find?])⟩ ?_
      refine ih hd hrest fun y v v' hv hv' => ?_
      -- The first name is not bound again, so it is not `y`.
      have hxy : x ≠ y := by
        rintro rfl
        exact hx (List.mem_map_of_mem (mem_of_find? hv))
      exact h y v v' (by simpa [Bindings.find?, hxy] using hv)
        (by simpa [Bindings.find?, hxy] using hv')

end Bindings.InStep

end EffectCalculus
