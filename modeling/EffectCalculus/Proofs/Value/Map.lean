import EffectCalculus.Proofs.Bindings.History
import EffectCalculus.Proofs.Value.Position
import EffectCalculus.Proofs.Value.Show
import Mathlib.Data.List.Perm.Subperm

/-!
# Environments as finite maps

An environment keeps its names in an order, which looking up, equality and rendering do not depend
on. Environments that came about in different ways are the same finite map as soon as they bind the
same names to the same values, and closures cannot be told apart by them.

* `Bindings.SameMap`: the same finite map, as far as a relation on values can tell;
* `Value.same_closure_iff`: closures over environments are equal exactly if these are the same map
  with equal values;
* `Value.Alike`: the same value but for the order of bindings inside it;
* `environments_faithful`: **environments are faithful maps in the order of insertion**, along
  histories that may branch, and closures do not show the order.
-/

namespace EffectCalculus

/-! ## The same map -/

namespace Bindings

variable {α β : Type} {R : α → β → Prop} {bs : Bindings α} {bs' : Bindings β}

/-- Each name is unbound in both, or bound in both and to what `R` relates. -/
def SameMap (R : α → β → Prop) (bs : Bindings α) (bs' : Bindings β) : Prop :=
  ∀ x, Option.Rel R (bs.find? x) (bs'.find? x)

theorem mem_names_of_find? {x : String} {v : α} (h : bs.find? x = some v) : x ∈ bs.names :=
  List.mem_map_of_mem (mem_of_find? h)

theorem find?_eq_none_iff {x : String} : bs.find? x = none ↔ x ∉ bs.names := by
  constructor
  · intro hnone hx
    obtain ⟨v, hv⟩ := exists_find? hx
    cases hnone.symm.trans hv
  · intro hx
    cases hv : bs.find? x with
    | none => rfl
    | some v => exact absurd (mem_names_of_find? hv) hx

namespace SameMap

theorem rel (h : SameMap R bs bs') {x : String} {v : α} {v' : β} (hv : bs.find? x = some v)
    (hv' : bs'.find? x = some v') : R v v' := by
  have hx := h x
  rw [hv, hv'] at hx
  cases hx with
  | some hrel => exact hrel

theorem mem_names_iff (h : SameMap R bs bs') (x : String) : x ∈ bs.names ↔ x ∈ bs'.names := by
  rw [← not_iff_not, ← find?_eq_none_iff, ← find?_eq_none_iff]
  have hx := h x
  generalize bs.find? x = v? at hx
  generalize bs'.find? x = v?' at hx
  cases hx <;> simp

theorem names_perm (h : SameMap R bs bs') (hd : bs.Distinct) (hd' : bs'.Distinct) :
    bs.names.Perm bs'.names :=
  (List.perm_ext_iff_of_nodup hd hd').mpr h.mem_names_iff

theorem of_perm (hnames : bs.names.Perm bs'.names)
    (h : ∀ x v v', bs.find? x = some v → bs'.find? x = some v' → R v v') : SameMap R bs bs' := by
  intro x
  cases hv : bs.find? x with
  | none =>
    have hx : x ∉ bs'.names := by rwa [← hnames.mem_iff, ← find?_eq_none_iff]
    rw [find?_eq_none_iff.mpr hx]
    exact .none
  | some v =>
    have hx : x ∈ bs'.names := hnames.mem_iff.mp (mem_names_of_find? hv)
    obtain ⟨v', hv'⟩ := exists_find? hx
    rw [hv']
    exact .some (h x v v' hv hv')

end SameMap

end Bindings

/-! ## Closures -/

namespace Value

/-- Equality of closures counts the bindings and looks up each one of the first environment in the
second. No name is bound twice, so by then none of the second is left over. -/
theorem same_closure_iff {env env' : Env} (henv : env.Distinct) (henv' : env'.Distinct)
    (x : String) (b : Term) :
    (closure env x b).same (closure env' x b) = true ↔
      Bindings.SameMap (fun v v' => v.same v' = true) env env' := by
  have hparts : (closure env x b).same (closure env' x b) = true ↔
      env.length = env'.length ∧ sameIn env env' = true := by
    simp [same, Term.same_refl]
  rw [hparts, sameIn_iff]
  constructor
  · rintro ⟨hlength, hfound⟩
    have hsubset : env.names ⊆ env'.names := by
      intro y hy
      obtain ⟨v, hv⟩ := Bindings.exists_find? hy
      obtain ⟨v', hv', -⟩ := hfound (y, v) (Bindings.mem_of_find? hv)
      exact Bindings.mem_names_of_find? hv'
    have hnames : env.names.Perm env'.names := by
      apply (List.Nodup.subperm henv hsubset).perm_of_length_le
      simp [Bindings.names, hlength]
    apply Bindings.SameMap.of_perm hnames
    intro y v v' hv hv'
    obtain ⟨u, hu, hsame⟩ := hfound (y, v) (Bindings.mem_of_find? hv)
    cases hu.symm.trans hv'
    exact hsame
  · intro h
    constructor
    · simpa [Bindings.names] using (h.names_perm henv henv').length_eq
    · intro p hp
      have hv : env.find? p.1 = some p.2 := (Bindings.find?_eq_some_iff henv).mpr hp
      have hbound : p.1 ∈ env'.names := (h.mem_names_iff p.1).mp (List.mem_map_of_mem hp)
      obtain ⟨v', hv'⟩ := Bindings.exists_find? hbound
      exact ⟨v', hv', h.rel hv hv'⟩

theorem Reordered.same {v v' : Value} (h : v.Reordered v') (hv : v.Keyed) (hv' : v'.Keyed) :
    v.same v' = true := by
  induction h with
  | num n => simp [Value.same]
  | @closure env env' x b hnames _ ih =>
    cases hv with
    | closure henv hbindings =>
    cases hv' with
    | closure henv' hbindings' =>
    rw [same_closure_iff henv henv']
    apply Bindings.SameMap.of_perm hnames
    intro y u u' hu hu'
    exact ih y u u' hu hu' (hbindings _ (Bindings.mem_of_find? hu))
      (hbindings' _ (Bindings.mem_of_find? hu'))

/-- The same value but for the order in which environments inside it bind their names, none of them
twice. Reordering is for values without atoms; one that holds an atom is like itself. -/
def Alike (v v' : Value) : Prop := v.Keyed ∧ v'.Keyed ∧ (v = v' ∨ v.Reordered v')

namespace Alike

variable {v v' : Value}

theorem same (h : v.Alike v') : v.same v' = true := by
  obtain ⟨hv, hv', rfl | hreordered⟩ := h
  · exact hv.same_of_mapPos_eq rfl
  · exact hreordered.same hv hv'

theorem render_eq (h : v.Alike v') : v.render = v'.render := by
  obtain ⟨hv, hv', rfl | hreordered⟩ := h
  · rfl
  · exact hreordered.render_eq hv hv'

end Alike

end Value

/-! ## Histories of environments -/

open Bindings (Extension Timely history SameMap)

/-- **Environments are faithful maps in the order of insertion.** Take any start, with names
repeated or not, and any steps that each extend an environment made before. The history is
completed, and no step has changed what was there before it. Each environment binds the names of its
chain of extensions once, in the order in which they came first, and to the values that came last.
Closures over two environments, of the same history or not, are equal exactly if these are the same
map with equal values; and if they are the same map with values that differ at most in the order of
their own bindings, the closures have the same rendering as well. -/
theorem environments_faithful :
    (∀ (start : List (String × Value)) (steps : List (Extension Value)), Timely steps →
      ∃ made, history start steps = some made ∧ made.length = steps.length + 1 ∧
        (∀ n, history start (steps.take n) = some (made.take (n + 1))) ∧
        ∀ k ≤ steps.length, ∃ env chain, made[k]? = some env ∧ Bindings.Chain start steps k chain ∧
          env.Records chain) ∧
    ∀ env env' : Env, env.Made → env'.Made → ∀ (x : String) (b : Term),
      ((Value.closure env x b).same (.closure env' x b) = true ↔
        SameMap (fun v v' => v.same v' = true) env env') ∧
      (SameMap Value.Alike env env' →
        (Value.closure env x b).same (.closure env' x b) = true ∧
        (Value.closure env x b).render = (Value.closure env' x b).render) := by
  constructor
  · intro start steps hsteps
    obtain ⟨made, hmade⟩ := Bindings.exists_history start hsteps
    refine ⟨made, hmade, Bindings.length_of_history hmade, Bindings.history_take hmade, ?_⟩
    intro k hk
    obtain ⟨chain, hchain⟩ := Bindings.exists_chain start hsteps hk
    exact ⟨_, chain, hchain.getElem?_eq hmade, hchain, Bindings.records_ofList chain⟩
  · intro env env' hmade hmade' x b
    have henv := hmade.distinct
    have henv' := hmade'.distinct
    have hequal := Value.same_closure_iff henv henv' x b
    refine ⟨hequal, fun h => ?_⟩
    have hnames := h.names_perm henv henv'
    constructor
    · exact hequal.mpr (.of_perm hnames fun y v v' hv hv' => (h.rel hv hv').same)
    · apply Value.render_closure_congr henv henv' hnames
      intro y v v' hv hv'
      exact (h.rel hv hv').render_eq

/-- Two histories that come to one map. In the first, `x` is bound twice at the start and again on
another branch; the second binds the names in the opposite order, one of them to a closure whose own
bindings have changed places. -/
theorem environments_faithful_branches :
    let inner : Value := .closure [("a", .num 1), ("b", .num 2)] "p" (.var .none "a")
    let inner' : Value := .closure [("b", .num 2), ("a", .num 1)] "p" (.var .none "a")
    let start : List (String × Value) := [("x", .num 1), ("y", inner), ("x", .num 3)]
    let steps : List (Extension Value) := [⟨0, "z", .num 5⟩, ⟨0, "x", .num 7⟩]
    let steps' : List (Extension Value) := [⟨0, "z", .num 5⟩, ⟨1, "y", inner'⟩, ⟨2, "x", .num 3⟩]
    let env : Env := [("x", .num 3), ("y", inner), ("z", .num 5)]
    let env' : Env := [("z", .num 5), ("y", inner'), ("x", .num 3)]
    let b : Term := .var .none "x"
    Timely steps ∧ Timely steps' ∧
      (∃ made, history start steps = some made ∧ made[1]? = some env ∧
        history start (steps.take 1) = some [Bindings.ofList start, env] ∧
        env.Records (start ++ [("z", .num 5)])) ∧
      env.Made ∧ env'.Made ∧ SameMap Value.Alike env env' ∧
      (Value.closure env "p" b).same (.closure env' "p" b) = true ∧
      (Value.closure env "p" b).render = (Value.closure env' "p" b).render := by
  intro inner inner' start steps steps' env env' b
  have hsteps : Timely steps := by decide
  have hsteps' : Timely steps' := by decide
  obtain ⟨hhistory, hclosures⟩ := environments_faithful
  obtain ⟨made, hmade, -, hearlier, hrecords⟩ := hhistory start steps hsteps
  have hall : history start steps =
      some [Bindings.ofList start, env, [("x", .num 7), ("y", inner)]] := rfl
  cases hall.symm.trans hmade
  have hrecord : env.Records (start ++ [("z", .num 5)]) := by
    obtain ⟨env₁, chain, henv₁, hchain, hrecord⟩ := hrecords 1 (by decide)
    cases henv₁
    cases hchain with
    | extend step older =>
      cases step
      cases older
      exact hrecord
  have hmade₁ : env.Made := ⟨start, steps, _, hmade, by simp⟩
  have hmade₂ : env'.Made := by
    have hall' : history [] steps' =
        some [[], [("z", .num 5)], [("z", .num 5), ("y", inner')], env'] := rfl
    exact ⟨[], steps', _, hall', by simp⟩
  have hnum : ∀ n, (Value.num n).Alike (.num n) := fun n => ⟨.num n, .num n, .inl rfl⟩
  have hinner : inner.Alike inner' := by
    have hkeyed : inner.Keyed := .closure (by decide) (by simp [Value.Keyed.num])
    have hkeyed' : inner'.Keyed := .closure (by decide) (by simp [Value.Keyed.num])
    have hformed : Env.WellFormed [("a", .num 1), ("b", .num 2)] := by
      simp [Env.WellFormed, Value.WellFormed.num]
    exact ⟨hkeyed, hkeyed', .inr (.of_perm (.swap _ _ _) (by decide) hformed _ _)⟩
  have hmap : SameMap Value.Alike env env' := by
    apply SameMap.of_perm (by decide)
    intro y v v' hv hv'
    have hmem := Bindings.mem_of_find? hv
    have hmem' := Bindings.mem_of_find? hv'
    simp only [env, env', List.mem_cons, Prod.mk.injEq, List.not_mem_nil, or_false] at hmem hmem'
    rcases hmem with ⟨rfl, rfl⟩ | ⟨rfl, rfl⟩ | ⟨rfl, rfl⟩
    · obtain rfl : v' = .num 3 := by simpa using hmem'
      exact hnum 3
    · obtain rfl : v' = inner' := by simpa using hmem'
      exact hinner
    · obtain rfl : v' = .num 5 := by simpa using hmem'
      exact hnum 5
  obtain ⟨hsame, hrender⟩ := (hclosures env env' hmade₁ hmade₂ "p" b).2 hmap
  exact ⟨hsteps, hsteps', ⟨_, hmade, rfl, hearlier 1, hrecord⟩, hmade₁, hmade₂, hmap, hsame,
    hrender⟩

end EffectCalculus
