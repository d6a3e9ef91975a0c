import EffectCalculus.Proofs.Term.Place
import EffectCalculus.Proofs.Term.Show

/-!
# Substitution as a reader

A substitution reader is made once and then used with any name and replacement. Making it walks over
the part of the tree that lies under no binder, and using it walks below the binders, so an atom may
be found earlier or later than by plain substitution, and another one first. The reader still gives
the same results, and reports an atom for the same inputs.

* `Reports`, `Refuses`: an operation reports an atom, and does so exactly under a condition;
* `subst_refuses`, `substReader_refuses`: plain substitution is stopped by an atom below no binder
  of the name, and the making of a reader by an atom below no binder at all;
* `Concur`: two operations give one term, or both report an atom;
* `substReader_concur`: **a reader concurs with plain substitution** once it is made;
* `substReader_refines`: making and using a reader, on all inputs.
-/

namespace EffectCalculus

/-! ## Reports -/

/-- The operation reports an atom. -/
def Reports {α : Type} (m : Except EvalError α) : Prop := ∃ a, m = .error (.notExpression a)

/-- The operation reports an atom if `P`, and has a result otherwise. -/
def Refuses {α : Type} (m : Except EvalError α) (P : Prop) : Prop :=
  (P ∧ Reports m) ∨ (¬ P ∧ ∃ t, m = .ok t)

namespace Refuses

variable {α β : Type} {m m' : Except EvalError α} {P Q : Prop}

theorem ok {t : α} (h : ¬ P) : Refuses (.ok t) P := .inr ⟨h, t, rfl⟩

theorem error {a : Atom} (h : P) : Refuses (.error (.notExpression a) : Except EvalError α) P :=
  .inl ⟨h, a, rfl⟩

theorem congr (h : Refuses m P) (hPQ : P ↔ Q) : Refuses m Q := by
  rwa [← propext hPQ]

/-- One operation and what is made of its result. -/
theorem map (k : α → β) (h : Refuses m P) : Refuses (m >>= fun t => pure (k t)) P := by
  obtain ⟨hP, a, rfl⟩ | ⟨hP, t, rfl⟩ := h
  · exact error hP
  · exact ok hP

/-- Two operations, the first of which decides if both report. -/
theorem pair (k : α → α → β) (h : Refuses m P) (h' : Refuses m' Q) :
    Refuses (m >>= fun t => m' >>= fun u => pure (k t u)) (P ∨ Q) := by
  obtain ⟨hP, a, rfl⟩ | ⟨hP, t, rfl⟩ := h
  · exact error (.inl hP)
  · exact (h'.map (k t)).congr (or_iff_right hP).symm

theorem reports (h : Refuses m P) (hP : P) : Reports m := by
  obtain ⟨-, hm⟩ | ⟨hn, -⟩ := h
  · exact hm
  · exact absurd hP hn

theorem of_error {err : EvalError} (h : Refuses (.error err : Except EvalError α) P) : P := by
  obtain ⟨hP, -⟩ | ⟨-, t, ht⟩ := h
  · exact hP
  · cases ht

end Refuses

/-! ## Results -/

/-- Both give the same term, or both report an atom, be it the same or not. -/
inductive Concur : Except EvalError Term → Except EvalError Term → Prop
  | ok (t : Term) : Concur (.ok t) (.ok t)
  | error (a b : Atom) : Concur (.error (.notExpression a)) (.error (.notExpression b))

namespace Concur

variable {m m' : Except EvalError Term}

theorem bind {k k' : Term → Except EvalError Term} (h : Concur m m')
    (hk : ∀ t, Concur (k t) (k' t)) : Concur (m >>= k) (m' >>= k') := by
  cases h with
  | ok t => exact hk t
  | error a b => exact .error a b

theorem refuses {P : Prop} (h : Concur m m') (h' : Refuses m' P) : Refuses m P := by
  cases h with
  | ok t => exact h'
  | error a b => exact .error h'.of_error

end Concur

namespace Term

/-! ## Atoms in the way -/

/-- An atom below no binder of the name stops plain substitution, and nothing else does. -/
theorem subst_refuses (x : String) (r e : Term) :
    Refuses (subst x r e) (∃ ys a, ⟨ys, .atom a⟩ ∈ e.places ∧ x ∉ ys) := by
  induction e with
  | var pos y => exact .ok (by simp)
  | num pos n => exact .ok (by simp)
  | atom a => exact .error ⟨[], a, by simp, by simp⟩
  | app pos f a ihf iha =>
    refine (ihf.pair (Term.app pos) iha).congr ?_
    simp only [mem_places_app, reduceCtorEq, and_false, false_or, or_and_right, exists_or]
  | add pos l e ihl ihe =>
    refine (ihl.pair (Term.add pos) ihe).congr ?_
    simp only [mem_places_add, reduceCtorEq, and_false, false_or, or_and_right, exists_or]
  | abs pos y b ih =>
    by_cases hy : y = x
    · subst hy
      rw [subst_abs_self]
      refine .ok ?_
      rintro ⟨ys, a, hmem, hx⟩
      simp only [mem_places_abs, reduceCtorEq, and_false, false_or] at hmem
      obtain ⟨zs, rfl, -⟩ := hmem
      exact hx List.mem_cons_self
    · simp only [subst, hy, ↓reduceIte]
      refine (ih.map (Term.abs pos y)).congr ?_
      constructor
      · rintro ⟨ys, a, hmem, hx⟩
        exact ⟨y :: ys, a, by simp [hmem], by simp [hx, Ne.symm hy]⟩
      · rintro ⟨ys, a, hmem, hx⟩
        simp only [mem_places_abs, reduceCtorEq, and_false, false_or] at hmem
        obtain ⟨zs, rfl, hmem⟩ := hmem
        exact ⟨zs, a, hmem, fun h => hx (List.mem_cons_of_mem _ h)⟩

/-- An atom below no binder stops the making of a reader, and nothing else does. -/
theorem substReader_refuses (e : Term) :
    Refuses e.substReader (∃ a, ⟨[], .atom a⟩ ∈ e.places) := by
  induction e with
  | var pos y => exact .ok (by simp)
  | num pos n => exact .ok (by simp)
  | atom a => exact .error ⟨a, by simp⟩
  | abs pos y b => exact .ok (by simp)
  | app pos f a ihf iha =>
    refine (ihf.pair _ iha).congr ?_
    simp only [mem_places_app, reduceCtorEq, and_false, false_or, exists_or]
  | add pos l r ihl ihr =>
    refine (ihl.pair _ ihr).congr ?_
    simp only [mem_places_add, reduceCtorEq, and_false, false_or, exists_or]

/-- What stops the making of a reader is an atom, and stops plain substitution whatever the name. -/
theorem subst_reports_of_error {e : Term} {err : EvalError} (h : e.substReader = .error err)
    (x : String) (r : Term) : (∃ a, err = .notExpression a) ∧ Reports (subst x r e) := by
  obtain ⟨⟨c, hmem⟩, a, ha⟩ | ⟨-, run, hrun⟩ := substReader_refuses e
  · refine ⟨⟨a, Except.error.inj (h.symm.trans ha)⟩, ?_⟩
    exact (subst_refuses x r e).reports ⟨[], c, hmem, List.not_mem_nil⟩
  · cases h.symm.trans hrun

/-! ## Readers -/

/-- **A reader concurs with plain substitution.** Below a binder the reader of the body is made on
use; if an atom stops that, it stops plain substitution of the body as well. -/
theorem substReader_concur {e : Term} {run : Substitution} (h : e.substReader = .ok run)
    (x : String) (r : Term) : Concur (run (x, r)) (subst x r e) := by
  induction e generalizing run with
  | var pos y =>
    cases h
    simp only [subst, eq_comm (a := y)]
    exact .ok _
  | num pos n =>
    cases h
    exact .ok _
  | atom => cases h
  | app pos f a ihf iha =>
    simp only [substReader, Except.bind_eq_ok, pure, Except.pure, Except.ok.injEq] at h
    obtain ⟨runf, hf, runa, ha, rfl⟩ := h
    exact (ihf hf).bind fun _ => (iha ha).bind fun _ => .ok _
  | add pos l e ihl ihe =>
    simp only [substReader, Except.bind_eq_ok, pure, Except.pure, Except.ok.injEq] at h
    obtain ⟨runl, hl, rune, he, rfl⟩ := h
    exact (ihl hl).bind fun _ => (ihe he).bind fun _ => .ok _
  | abs pos y b ih =>
    cases h
    by_cases hx : x = y
    · subst hx
      simp only [subst, ↓reduceIte]
      exact .ok _
    · simp only [subst, hx, Ne.symm hx, ↓reduceIte]
      cases hb : b.substReader with
      | ok inner => exact (ih hb).bind fun _ => .ok _
      | error err =>
        obtain ⟨⟨a, rfl⟩, c, hc⟩ := subst_reports_of_error hb x r
        rw [hc]
        exact .error a c

/-- Making a reader and using it at once concurs with plain substitution. -/
theorem substViaReader_concur (x : String) (r e : Term) :
    Concur (substViaReader x r e) (subst x r e) := by
  unfold substViaReader
  cases h : e.substReader with
  | ok run => exact substReader_concur h x r
  | error err =>
    obtain ⟨⟨a, rfl⟩, c, hc⟩ := subst_reports_of_error h x r
    rw [hc]
    exact .error a c

/-- **The reader form of substitution agrees with the direct one on all trees.** Making the reader
reports an atom exactly if one lies below no binder. Once made, the reader gives for each name and
replacement the term that plain substitution gives, or both report an atom. So making and using it
reports an atom exactly if plain substitution does, which is if one lies below no binder of the
name. -/
theorem substReader_refines (e : Term) :
    Refuses e.substReader (∃ a, ⟨[], .atom a⟩ ∈ e.places) ∧
    (∀ run, e.substReader = .ok run → ∀ x r, Concur (run (x, r)) (subst x r e)) ∧
    ∀ x r, Concur (substViaReader x r e) (subst x r e) ∧
      Refuses (substViaReader x r e) (∃ ys a, ⟨ys, .atom a⟩ ∈ e.places ∧ x ∉ ys) ∧
      Refuses (subst x r e) (∃ ys a, ⟨ys, .atom a⟩ ∈ e.places ∧ x ∉ ys) := by
  refine ⟨substReader_refuses e, fun run h => substReader_concur h, fun x r => ?_⟩
  have hconcur := substViaReader_concur x r e
  have hrefuses := subst_refuses x r e
  exact ⟨hconcur, hconcur.refuses hrefuses, hrefuses⟩

/-- An atom under an inner binder of a function and one in the argument, both below `y`. The reader
is made; used for `y` it gives the term back, and used for `x` it reports an atom. -/
theorem substReader_refines_under_binder :
    let e : Term := .abs ⟨0, 0⟩ "y" (.app ⟨0, 1⟩ (.abs ⟨0, 2⟩ "z" (.atom (.int 1)))
      (.atom (.int 2)))
    let r : Term := .num ⟨1, 0⟩ 5
    ∃ run, e.substReader = .ok run ∧ run ("y", r) = .ok e ∧ Reports (run ("x", r)) ∧
      Reports (subst "x" r e) := by
  intro e r
  obtain ⟨hmake, huse, hall⟩ := substReader_refines e
  obtain ⟨⟨a, hmem⟩, -⟩ | ⟨-, run, hrun⟩ := hmake
  · exact absurd hmem (by simp [e])
  have hy := huse run hrun "y" r
  have hx := huse run hrun "x" r
  have hsubst : Reports (subst "x" r e) := (hall "x" r).2.2.reports ⟨["y"], .int 2, by decide⟩
  refine ⟨run, hrun, ?_, ?_, hsubst⟩
  · rw [subst_abs_self] at hy
    generalize run ("y", r) = m at hy
    cases hy
    rfl
  · obtain ⟨a, ha⟩ := hsubst
    rw [ha] at hx
    generalize run ("x", r) = m at hx
    cases hx with
    | error b => exact ⟨b, rfl⟩

/-- Of two atoms below a binder, the reader reports the second: the part of the body that lies under
no binder is walked first. -/
example :
    let e : Term := .abs ⟨0, 0⟩ "y" (.app ⟨0, 1⟩ (.abs ⟨0, 2⟩ "z" (.atom (.int 1)))
      (.atom (.int 2)))
    substViaReader "x" (.num ⟨1, 0⟩ 5) e = .error (.notExpression (.int 2)) ∧
      subst "x" (.num ⟨1, 0⟩ 5) e = .error (.notExpression (.int 1)) :=
  ⟨rfl, rfl⟩

end Term

end EffectCalculus
