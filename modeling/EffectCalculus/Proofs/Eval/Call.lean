import EffectCalculus.Proofs.Eval.Watching
import Mathlib.Logic.Relation

/-!
# Calls of the evaluator by substitution

Evaluating a term evaluates other terms on the way. Which ones depends on the results met so far,
and not on what is watched.

* `bySubstitution_unmoved`: watching does not change a result;
* `Term.Evaluates`, `Term.Calls`, `Term.Reaches`: results, the evaluations that one evaluation makes
  itself, and all that are made in its course;
* `Calls.evaluates`: an evaluation with a result has got a result from each of its calls, so one
  that reaches a variable has none itself (`Reaches.not_evaluates`);
* `Term.Meets`, `meets_app_iff`, `meets_add_iff`: variables evaluated on the way, and by which call.
-/

namespace EffectCalculus

open Eval

/-! ## Watching -/

/-- `m` ends as `m'` does, unless it reports an atom. -/
def Eval.Unmoved {α : Type} (m m' : Eval α) : Prop :=
  ∀ log log', (∃ a, (m log).1 = .fault (.notExpression a)) ∨ (m log).1 = (m' log').1

theorem bySubstitution_unmoved (w : Watch) (n : Nat) (e : Term) :
    Unmoved (bySubstitution w n e) (bySubstitution Watch.off n e) := by
  intro log log'
  -- Nothing is known about atoms here.
  have hclean : False → e.WellFormed := False.elim
  obtain ⟨err, notes, ⟨-, -, t, ht⟩, h⟩ | ⟨out, notes, notes', h, h', -⟩ :=
    bySubstitution_undisturbed w.off_discreet n hclean
  · obtain ⟨a, rfl, -⟩ := Term.text_error ht
    exact .inl ⟨a, by rw [h]⟩
  · exact .inr (by rw [h, h'])

/-! ## Results -/

namespace Term

/-- Evaluating `e` by substitution ends with the result `r`, or without one. -/
def Evaluates (e : Term) (r : Option Term) : Prop := Returns (bySubstitution Watch.off · e) r

theorem evaluates_of_done {w : Watch} {n : Nat} {e : Term} {r : Option Term}
    {log log' : List Note} (h : bySubstitution w n e log = (.done r, log')) : e.Evaluates r := by
  rcases bySubstitution_unmoved w n e log [] with ⟨a, ha⟩ | ho
  · rw [h] at ha
    cases ha
  · rw [h] at ho
    exact ⟨(bySubstitution Watch.off n e []).2, by simp, n, Prod.ext ho.symm rfl⟩

theorem Evaluates.unique {e : Term} {r r' : Option Term} (h : e.Evaluates r)
    (h' : e.Evaluates r') : r = r' :=
  returns_unique (fun _ _ => bySubstitution_below Watch.off e) h h'

theorem Evaluates.app_some {pos : Pos} {f a v : Term}
    (h : (app pos f a).Evaluates (some v)) :
    ∃ q x b u e, f.Evaluates (some (.abs q x b)) ∧ a.Evaluates (some u) ∧
      subst x u b = .ok e ∧ e.Evaluates (some v) := by
  obtain ⟨log, -, n, hn⟩ := h
  cases n with
  | zero => cases hn
  | succ n =>
    obtain ⟨_, log₁, -, hn⟩ := Run.bind_eq_done.mp hn
    obtain ⟨callee, log₂, hf, hn⟩ := andThen_eq_some.mp hn
    cases callee with
    | abs q x b =>
      obtain ⟨u, log₃, ha, hn⟩ := andThen_eq_some.mp hn
      obtain ⟨e, log₄, hs, he⟩ := Run.bind_eq_done.mp hn
      cases hsub : subst x u b with
      | error err =>
        rw [hsub] at hs
        cases hs
      | ok e' =>
        rw [hsub] at hs
        cases hs
        exact ⟨q, x, b, u, e, evaluates_of_done hf, evaluates_of_done ha, hsub,
          evaluates_of_done he⟩
    | _ => cases hn

theorem Evaluates.add_some {pos : Pos} {l r v : Term}
    (h : (add pos l r).Evaluates (some v)) :
    ∃ u t, l.Evaluates (some u) ∧ r.Evaluates (some t) := by
  obtain ⟨log, -, n, hn⟩ := h
  cases n with
  | zero => cases hn
  | succ n =>
    obtain ⟨_, log₁, -, hn⟩ := Run.bind_eq_done.mp hn
    obtain ⟨u, log₂, hl, hn⟩ := andThen_eq_some.mp hn
    obtain ⟨t, log₃, hr, -⟩ := andThen_eq_some.mp hn
    exact ⟨u, t, evaluates_of_done hl, evaluates_of_done hr⟩

theorem not_evaluates_var_some {pos : Pos} {x : String} {v : Term} :
    ¬ (var pos x).Evaluates (some v) := by
  rintro ⟨log, -, n, hn⟩
  cases n with
  | zero => cases hn
  | succ n =>
    obtain ⟨_, log₁, -, hn⟩ := Run.bind_eq_done.mp hn
    obtain ⟨_, log₂, -, hn⟩ := Run.bind_eq_done.mp hn
    cases hn

/-! ## Calls -/

/-- Evaluating the first term evaluates the second, as one of its parts or, for an application, as
the body of the callee with the argument put in. -/
inductive Calls : Term → Term → Prop
  | fn {pos : Pos} {f a : Term} : Calls (.app pos f a) f
  | arg {pos q : Pos} {x : String} {f a b : Term} (hf : f.Evaluates (some (.abs q x b))) :
      Calls (.app pos f a) a
  | body {pos q : Pos} {x : String} {f a b u e : Term} (hf : f.Evaluates (some (.abs q x b)))
      (ha : a.Evaluates (some u)) (hs : subst x u b = .ok e) : Calls (.app pos f a) e
  | left {pos : Pos} {l r : Term} : Calls (.add pos l r) l
  | right {pos : Pos} {l r u : Term} (hl : l.Evaluates (some u)) : Calls (.add pos l r) r

/-- In the course of evaluating the first term, the second is evaluated. -/
def Reaches : Term → Term → Prop := Relation.ReflTransGen Calls

theorem Calls.evaluates {e e' v : Term} (h : Calls e e') (hv : e.Evaluates (some v)) :
    ∃ u, e'.Evaluates (some u) := by
  cases h with
  | fn =>
    obtain ⟨q, x, b, u, t, hf, -⟩ := hv.app_some
    exact ⟨_, hf⟩
  | arg _ =>
    obtain ⟨q, x, b, u, t, -, ha, -⟩ := hv.app_some
    exact ⟨u, ha⟩
  | body hf ha hs =>
    obtain ⟨q, x, b, u, t, hf', ha', hs', ht⟩ := hv.app_some
    cases hf.unique hf'
    cases ha.unique ha'
    cases hs.symm.trans hs'
    exact ⟨v, ht⟩
  | left =>
    obtain ⟨u, t, hl, -⟩ := hv.add_some
    exact ⟨u, hl⟩
  | right _ =>
    obtain ⟨u, t, -, hr⟩ := hv.add_some
    exact ⟨t, hr⟩

theorem Reaches.not_evaluates {e v : Term} {pos : Pos} {x : String}
    (h : e.Reaches (.var pos x)) : ¬ e.Evaluates (some v) := by
  induction h using Relation.ReflTransGen.head_induction_on generalizing v with
  | refl => exact not_evaluates_var_some
  | head hc _ ih =>
    intro hv
    obtain ⟨u, hu⟩ := hc.evaluates hv
    exact ih hu

/-! ## Variables on the way -/

/-- In the course of evaluating `e`, a variable `x` is evaluated. -/
def Meets (e : Term) (x : String) : Prop := ∃ pos, e.Reaches (.var pos x)

theorem meets_var (pos : Pos) (x : String) : (var pos x).Meets x := ⟨pos, .refl⟩

theorem Calls.meets {e e' : Term} {x : String} (h : Calls e e') (hx : e'.Meets x) :
    e.Meets x := by
  obtain ⟨pos, hr⟩ := hx
  exact ⟨pos, .head h hr⟩

theorem not_meets_of_evaluates {e v : Term} (h : e.Evaluates (some v)) (x : String) :
    ¬ e.Meets x := by
  rintro ⟨pos, hr⟩
  exact hr.not_evaluates h

theorem meets_app_iff {pos : Pos} {f a : Term} {x : String} :
    (app pos f a).Meets x ↔ f.Meets x ∨ ∃ q y b, f.Evaluates (some (.abs q y b)) ∧
      (a.Meets x ∨ ∃ u e, a.Evaluates (some u) ∧ subst y u b = .ok e ∧ e.Meets x) := by
  constructor
  · rintro ⟨p, hr⟩
    rcases Relation.ReflTransGen.cases_head hr with h | ⟨e', hc, hr⟩
    · cases h
    · cases hc with
      | fn => exact .inl ⟨p, hr⟩
      | arg hf => exact .inr ⟨_, _, _, hf, .inl ⟨p, hr⟩⟩
      | body hf ha hs => exact .inr ⟨_, _, _, hf, .inr ⟨_, _, ha, hs, p, hr⟩⟩
  · rintro (h | ⟨q, y, b, hf, h | ⟨u, e, ha, hs, h⟩⟩)
    · exact Calls.fn.meets h
    · exact (Calls.arg hf).meets h
    · exact (Calls.body hf ha hs).meets h

variable {pos q : Pos} {f a b u l r e : Term} {x y : String}

theorem meets_app_of_fn (hf : f.Evaluates none) : (app pos f a).Meets x ↔ f.Meets x := by
  rw [meets_app_iff]
  constructor
  · rintro (h | ⟨q, y, b, hf', -⟩)
    · exact h
    · cases hf.unique hf'
  · exact .inl

theorem meets_app_of_arg (hf : f.Evaluates (some (.abs q y b))) (ha : a.Evaluates none) :
    (app pos f a).Meets x ↔ a.Meets x := by
  rw [meets_app_iff]
  constructor
  · rintro (h | ⟨q, y, b, -, h | ⟨u, e, ha', -⟩⟩)
    · exact absurd h (not_meets_of_evaluates hf x)
    · exact h
    · cases ha.unique ha'
  · exact fun h => .inr ⟨q, y, b, hf, .inl h⟩

theorem meets_app_of_body (hf : f.Evaluates (some (.abs q y b))) (ha : a.Evaluates (some u))
    (hs : subst y u b = .ok e) : (app pos f a).Meets x ↔ e.Meets x := by
  rw [meets_app_iff]
  constructor
  · rintro (h | ⟨q', y', b', hf', h | ⟨u', e', ha', hs', h⟩⟩)
    · exact absurd h (not_meets_of_evaluates hf x)
    · exact absurd h (not_meets_of_evaluates ha x)
    · cases hf.unique hf'
      cases ha.unique ha'
      cases hs.symm.trans hs'
      exact h
  · exact fun h => .inr ⟨q, y, b, hf, .inr ⟨u, e, ha, hs, h⟩⟩

theorem not_meets_app (hf : f.Evaluates (some u)) (hu : ∀ q y b, u ≠ .abs q y b) :
    ¬ (app pos f a).Meets x := by
  rw [meets_app_iff]
  rintro (h | ⟨q, y, b, hf', -⟩)
  · exact not_meets_of_evaluates hf x h
  · cases hf.unique hf'
    exact hu q y b rfl

theorem meets_add_iff :
    (add pos l r).Meets x ↔ l.Meets x ∨ (∃ u, l.Evaluates (some u)) ∧ r.Meets x := by
  constructor
  · rintro ⟨p, hr⟩
    rcases Relation.ReflTransGen.cases_head hr with h | ⟨e', hc, hr⟩
    · cases h
    · cases hc with
      | left => exact .inl ⟨p, hr⟩
      | right hl => exact .inr ⟨⟨_, hl⟩, p, hr⟩
  · rintro (h | ⟨⟨u, hl⟩, h⟩)
    · exact Calls.left.meets h
    · exact (Calls.right hl).meets h

theorem meets_add_of_left (hl : l.Evaluates none) : (add pos l r).Meets x ↔ l.Meets x := by
  rw [meets_add_iff]
  constructor
  · rintro (h | ⟨⟨u, hl'⟩, -⟩)
    · exact h
    · cases hl.unique hl'
  · exact .inl

theorem meets_add_of_right (hl : l.Evaluates (some u)) :
    (add pos l r).Meets x ↔ r.Meets x := by
  rw [meets_add_iff]
  constructor
  · rintro (h | ⟨-, h⟩)
    · exact absurd h (not_meets_of_evaluates hl x)
    · exact h
  · exact fun h => .inr ⟨⟨u, hl⟩, h⟩

end Term

end EffectCalculus
