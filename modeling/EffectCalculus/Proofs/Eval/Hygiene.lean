import EffectCalculus.Proofs.Eval.Call
import EffectCalculus.Proofs.Eval.Scope
import EffectCalculus.Proofs.Term.Capture

/-!
# Hygiene of evaluation by substitution

Plain substitution captures: a binder may catch a variable of the replacement. But evaluation only
ever substitutes results, and no result mentions a name that the program does not. In a closed
program there is nothing to capture.

* `Term.isFree_of_subst`: what is free after a substitution, captured or not;
* `Term.subst_eq_substAvoiding`: with a closed replacement no binder is renamed;
* `Term.Covers`, `bySubstitution_keeps_covered`: **evaluation invents no free variables**;
* `Term.Reaches.covers`: nor does any evaluation made on the way;
* `Eval.Adds`, `bySubstitution_adds`: the log of a run, finished or not, tells of evaluations made
  on the way only;
* `bySubstitution_hygienic`: in a closed program all of them are of closed terms, and every
  substitution avoids capture.
-/

namespace EffectCalculus

open Run Eval

/-! ## Substitution -/

namespace Term

variable {x z : String} {r e t : Term}

/-- Only names of the term other than the one replaced, and names of the replacement, are free after
a substitution; some of the latter may have been captured. -/
theorem isFree_of_subst (hr : r.WellFormed) (he : e.WellFormed) (h : subst x r e = .ok t)
    (hz : t.IsFree z) : (e.IsFree z ∧ z ≠ x) ∨ r.IsFree z := by
  induction e generalizing t with
  | var pos y =>
    by_cases hy : y = x
    · simp only [subst, hy, ↓reduceIte, Except.ok.injEq] at h
      exact .inr (h ▸ hz)
    · simp only [subst, hy, ↓reduceIte, Except.ok.injEq] at h
      subst h
      obtain rfl := isFree_var.mp hz
      exact .inl ⟨hz, hy⟩
  | num pos n =>
    cases h
    exact absurd hz not_isFree_num
  | atom => exact he.elim
  | abs pos y b ih =>
    by_cases hy : y = x
    · subst hy
      rw [subst_abs_self] at h
      cases h
      exact .inl ⟨hz, (isFree_abs.mp hz).2⟩
    · obtain ⟨b', hb, -⟩ := exists_subst x hr (e := b) he
      rw [subst_abs hy hb] at h
      cases h
      obtain ⟨hz, hzy⟩ := isFree_abs.mp hz
      rcases ih he hb hz with ⟨hbz, hzx⟩ | hrz
      · exact .inl ⟨isFree_abs.mpr ⟨hbz, hzy⟩, hzx⟩
      · exact .inr hrz
  | app pos f a ihf iha =>
    obtain ⟨f', hf, hf'⟩ := exists_subst x hr he.1
    obtain ⟨a', ha, ha'⟩ := exists_subst x hr he.2
    rw [subst_app hf ha] at h
    cases h
    rw [isFree_app he.1 he.2]
    rcases (isFree_app hf' ha').mp hz with hz | hz
    · exact (ihf he.1 hf hz).imp (fun h => ⟨.inl h.1, h.2⟩) id
    · exact (iha he.2 ha hz).imp (fun h => ⟨.inr h.1, h.2⟩) id
  | add pos l e ihl ihe =>
    obtain ⟨l', hl, hl'⟩ := exists_subst x hr he.1
    obtain ⟨e', he', he''⟩ := exists_subst x hr he.2
    rw [subst_add hl he'] at h
    cases h
    rw [isFree_add he.1 he.2]
    rcases (isFree_add hl' he'').mp hz with hz | hz
    · exact (ihl he.1 hl hz).imp (fun h => ⟨.inl h.1, h.2⟩) id
    · exact (ihe he.2 he' hz).imp (fun h => ⟨.inr h.1, h.2⟩) id

theorem subst_eq_substAvoiding (x : String) (hr : r.WellFormed) (hc : r.Closed)
    (he : e.WellFormed) : ∃ t, subst x r e = .ok t ∧ substAvoiding x r e = .ok t := by
  obtain ⟨t, ht, h⟩ := exists_avoids x hr he
  exact ⟨t, h.subst_eq_of_harmless he (not_captures_of_closed hc), ht⟩

/-! ## Covered terms -/

/-- `t` has no atoms, and no free variables but those of `e`. -/
def Covers (e t : Term) : Prop := t.WellFormed ∧ ∀ z, t.IsFree z → e.IsFree z

namespace Covers

theorem refl (he : e.WellFormed) : e.Covers e := ⟨he, fun _ hz => hz⟩

theorem trans {s : Term} (h : e.Covers t) (h' : t.Covers s) : e.Covers s :=
  ⟨h'.1, fun z hz => h.2 z (h'.2 z hz)⟩

theorem closed (h : e.Covers t) (he : e.Closed) : t.Closed := fun z hz => he z (h.2 z hz)

variable {pos : Pos} {f a l b u : Term}

theorem fn (h : (app pos f a).WellFormed) : (app pos f a).Covers f :=
  ⟨h.1, fun _ hz => (isFree_app h.1 h.2).mpr (.inl hz)⟩

theorem arg (h : (app pos f a).WellFormed) : (app pos f a).Covers a :=
  ⟨h.2, fun _ hz => (isFree_app h.1 h.2).mpr (.inr hz)⟩

theorem left (h : (add pos l r).WellFormed) : (add pos l r).Covers l :=
  ⟨h.1, fun _ hz => (isFree_add h.1 h.2).mpr (.inl hz)⟩

theorem right (h : (add pos l r).WellFormed) : (add pos l r).Covers r :=
  ⟨h.2, fun _ hz => (isFree_add h.1 h.2).mpr (.inr hz)⟩

/-- Applying an abstraction to an argument keeps both covered. -/
theorem body {q : Pos} (hf : e.Covers (.abs q x b)) (hu : e.Covers u) :
    ∃ t, subst x u b = .ok t ∧ e.Covers t := by
  obtain ⟨t, ht, hwf⟩ := exists_subst x hu.1 (e := b) hf.1
  refine ⟨t, ht, hwf, fun z hz => ?_⟩
  rcases isFree_of_subst hu.1 (e := b) hf.1 ht hz with hb | hr
  · exact hf.2 z (isFree_abs.mpr hb)
  · exact hu.2 z hr

theorem sum? {v : Term} (h : v ∈ Term.sum? pos l r) : e.Covers v := by
  cases l <;> cases r <;> simp [Term.sum?] at h
  subst h
  exact ⟨trivial, fun z hz => absurd hz not_isFree_num⟩

end Covers

end Term

/-! ## Results -/

theorem Run.Keeps.of_ends {α : Type} {A : EvalError → Prop} {Q : α → Prop} {m : Eval α} {a : α}
    {notes : List Note} (h : m.Ends (.done a) notes) (ha : Q a) : m.Keeps A Q := by
  intro log log'
  rw [h log]
  constructor
  · rintro err ⟨⟩
  · rintro b ⟨⟩
    exact ha

theorem Run.Keeps.andThen {α β : Type} {A : EvalError → Prop} {Q : α → Prop} {R : β → Prop}
    {m : Eval (Option α)} {k : α → Eval (Option β)} (hm : m.Keeps A fun r => ∀ a ∈ r, Q a)
    (hk : ∀ a, Q a → (k a).Keeps A fun r => ∀ b ∈ r, R b) :
    (m.andThen k).Keeps A fun r => ∀ b ∈ r, R b := by
  refine hm.bind fun r hr => ?_
  cases r with
  | none => exact Keeps.pure (by simp)
  | some a => exact hk a (hr a rfl)

/-- **Evaluation invents no free variables**, and meets no atom in a term without atoms. The bound
on the free variables is fixed, since the terms evaluated on the way are not parts of one term. -/
theorem bySubstitution_keeps_covered (w : Watch) (n : Nat) {e t : Term} (ht : e.Covers t) :
    (bySubstitution w n t).Keeps (fun _ => False) fun r => ∀ v ∈ r, e.Covers v := by
  induction n generalizing t with
  | zero => exact Keeps.unfinished
  | succ n ih =>
    unfold bySubstitution
    refine Keeps.visit w .substitution ht.1 ?_
    cases t with
    | var pos x => exact Keeps.of_ends (ends_note_none w _) (by simp)
    | abs | num =>
      refine Keeps.pure fun v hv => ?_
      cases hv
      exact ht
    | atom => exact ht.1.elim
    | app pos f a =>
      refine (ih (ht.trans (.fn ht.1))).andThen fun callee hcallee => ?_
      cases callee with
      | abs q x b =>
        refine (ih (ht.trans (.arg ht.1))).andThen fun u hu => ?_
        obtain ⟨t', hsub, ht'⟩ := hcallee.body hu
        rw [hsub]
        exact ih ht'
      | _ => exact Keeps.pure (by simp)
    | add pos l r =>
      refine (ih (ht.trans (.left ht.1))).andThen fun u _ => ?_
      refine (ih (ht.trans (.right ht.1))).andThen fun v _ => ?_
      exact Keeps.pure fun s hs => Term.Covers.sum? hs

namespace Term

variable {e t : Term}

theorem Evaluates.covers {v : Term} (he : e.WellFormed) (h : e.Evaluates (some v)) :
    e.Covers v := by
  obtain ⟨log, -, n, hn⟩ := h
  exact (bySubstitution_keeps_covered Watch.off n (.refl he) [] log).2 _ hn v rfl

/-! ## Evaluations on the way -/

theorem Calls.covers (he : e.WellFormed) (h : Calls e t) : e.Covers t := by
  cases h with
  | fn => exact .fn he
  | arg => exact .arg he
  | left => exact .left he
  | right => exact .right he
  | body hf ha hs =>
    obtain ⟨t', ht', hcovers⟩ :=
      (Covers.trans (.fn he) (hf.covers he.1)).body (Covers.trans (.arg he) (ha.covers he.2))
    cases hs.symm.trans ht'
    exact hcovers

theorem Reaches.covers (he : e.WellFormed) (h : e.Reaches t) : e.Covers t := by
  induction h with
  | refl => exact .refl he
  | tail _ hc ih => exact ih.trans (hc.covers ih.1)

/-- In the course of evaluating `e`, `u` is substituted for `x` in `b`. -/
def Substitutes (e : Term) (x : String) (u b : Term) : Prop :=
  ∃ pos q f a, e.Reaches (.app pos f a) ∧ f.Evaluates (some (.abs q x b)) ∧ a.Evaluates (some u)

theorem Substitutes.covers {x : String} {u b : Term} (he : e.WellFormed)
    (h : e.Substitutes x u b) : e.Covers u ∧ b.WellFormed := by
  obtain ⟨pos, q, f, a, hr, hf, ha⟩ := h
  have happ := hr.covers he
  have hu := ha.covers happ.1.2
  have hb : b.WellFormed := (hf.covers happ.1.1).1
  exact ⟨happ.trans (Covers.trans (.arg happ.1) hu), hb⟩

/-- A closed term evaluates no variable. -/
theorem Closed.not_meets (hc : e.Closed) (he : e.WellFormed) (x : String) : ¬ e.Meets x := by
  rintro ⟨pos, hr⟩
  exact hc x ((hr.covers he).2 x (isFree_var.mpr rfl))

end Term

/-! ## The log -/

namespace Eval

variable {α β : Type} {P : Note → Prop}

/-- However `m` ends, it only adds notes with the property `P` to the log. -/
def Adds (m : Eval α) (P : Note → Prop) : Prop :=
  ∃ out notes, m.Ends out notes ∧ ∀ note ∈ notes, P note

namespace Adds

theorem pure (a : α) : Adds (Pure.pure a) P := ⟨_, _, ends_pure a, by simp⟩

theorem fault (err : EvalError) : Adds (Run.fault err : Eval α) P := ⟨_, _, ends_fault err, by simp⟩

theorem unfinished : Adds (Run.unfinished : Eval α) P := ⟨_, _, ends_unfinished, by simp⟩

theorem bind {m : Eval α} {k : α → Eval β} (hm : m.Adds P)
    (hk : ∀ a notes, m.Ends (.done a) notes → (k a).Adds P) : Adds (m >>= k) P := by
  obtain ⟨out, notes, h, hP⟩ := hm
  cases out with
  | done a =>
    obtain ⟨out', notes', h', hP'⟩ := hk a notes h
    refine ⟨out', notes ++ notes', h.bind_done h', fun note hnote => ?_⟩
    rcases List.mem_append.mp hnote with hnote | hnote
    · exact hP note hnote
    · exact hP' note hnote
  | fault err => exact ⟨_, notes, h.bind_fault k, hP⟩
  | unfinished => exact ⟨_, notes, h.bind_unfinished k, hP⟩

theorem andThen {m : Eval (Option α)} {k : α → Eval (Option β)} (hm : m.Adds P)
    (hk : ∀ a notes, m.Ends (.done (some a)) notes → (k a).Adds P) : (m.andThen k).Adds P := by
  refine hm.bind fun r notes hr => ?_
  cases r with
  | none => exact pure none
  | some a => exact hk a notes hr

theorem visit (w : Watch) (who : Evaluator) {t : Term} (h : P (.visit who t)) :
    (w.visit who t).Adds P := by
  rcases w.visit_cases t with ht | ⟨a, ht⟩
  · refine ⟨_, _, ht who, fun note hnote => ?_⟩
    have hmem : note = .visit who t := by
      cases htr : w.tracing <;> cases hv : w.verbose <;>
        simp_all [Watch.traced, Watch.kept]
    exact hmem ▸ h
  · exact ⟨_, _, ht who, by simp⟩

end Adds

end Eval

/-- A note on a term that is evaluated in the course of evaluating `e`. -/
inductive Note.OnTheWay (e : Term) : Note → Prop
  | visit {t : Term} (h : e.Reaches t) : OnTheWay e (.visit .substitution t)
  | freeVariable {x : String} (h : e.Meets x) : OnTheWay e (.freeVariable x)

/-- **A run, finished or not, notes nothing but terms evaluated on the way.** -/
theorem bySubstitution_adds (w : Watch) (n : Nat) {e t : Term} (h : e.Reaches t) :
    (bySubstitution w n t).Adds (Note.OnTheWay e) := by
  induction n generalizing t with
  | zero => exact Adds.unfinished
  | succ n ih =>
    unfold bySubstitution
    refine (Adds.visit w .substitution (.visit h)).bind fun _ _ _ => ?_
    cases t with
    | var pos x =>
      refine ⟨_, _, ends_note_none w _, fun note hnote => ?_⟩
      have hmem : note = .freeVariable x := by
        cases hv : w.verbose <;> simp_all [Watch.kept]
      exact hmem ▸ .freeVariable ⟨pos, h⟩
    | abs | num => exact Adds.pure _
    | atom a => exact Adds.fault _
    | app pos f a =>
      refine (ih (h.tail .fn)).andThen fun callee _ hf => ?_
      cases callee with
      | abs q x b =>
        have hf := Term.evaluates_of_done (hf [])
        refine (ih (h.tail (.arg hf))).andThen fun u _ ha => ?_
        have ha := Term.evaluates_of_done (ha [])
        cases hs : Term.subst x u b with
        | error err => exact Adds.fault err
        | ok s => exact ih (h.tail (.body hf ha hs))
      | _ => exact Adds.pure none
    | add pos l r =>
      refine (ih (h.tail .left)).andThen fun u _ hl => ?_
      refine (ih (h.tail (.right (Term.evaluates_of_done (hl []))))).andThen fun v _ _ => ?_
      exact Adds.pure _

/-! ## Closed programs -/

/-- **Evaluation by substitution is hygienic.** A result has no free variables but those of the
term. In the course of evaluating a closed term, as far as it gets, only closed terms are evaluated,
so never a variable; the log of any run tells of no others; and every substitution gives, positions
included, what capture-avoiding substitution gives. -/
theorem bySubstitution_hygienic {e : Term} (he : e.WellFormed) :
    (∀ w v, Returns (bySubstitution w · e) (some v) →
      v.WellFormed ∧ ∀ x, v.IsFree x → e.IsFree x) ∧
    (e.Closed →
      (∀ t, e.Reaches t → t.WellFormed ∧ t.Closed ∧ ∀ pos x, t ≠ .var pos x) ∧
      (∀ w n, ∀ note ∈ (bySubstitution w n e []).2,
        ∃ t, note = .visit .substitution t ∧ e.Reaches t) ∧
      ∀ x u b, e.Substitutes x u b →
        ∃ t, Term.subst x u b = .ok t ∧ Term.substAvoiding x u b = .ok t) := by
  constructor
  · rintro w v ⟨log, -, n, hn⟩
    exact (bySubstitution_keeps_covered w n (.refl he) [] log).2 _ hn v rfl
  intro hc
  refine ⟨fun t ht => ?_, fun w n note hnote => ?_, fun x u b h => ?_⟩
  · have hcovers := ht.covers he
    refine ⟨hcovers.1, hcovers.closed hc, fun pos x hvar => ?_⟩
    exact hc.not_meets he x ⟨pos, hvar ▸ ht⟩
  · obtain ⟨out, notes, h, hnotes⟩ := bySubstitution_adds w n (.refl : e.Reaches e)
    rw [h.eq] at hnote
    cases hnotes note hnote with
    | visit ht => exact ⟨_, rfl, ht⟩
    | freeVariable hx => exact absurd hx (hc.not_meets he _)
  · obtain ⟨hu, hb⟩ := h.covers he
    exact Term.subst_eq_substAvoiding x hu.1 (hu.closed hc) hb

/-- The argument `λy. y` is substituted for `x` under a binder of its own name `y`, and the result
is closed. -/
theorem bySubstitution_hygienic_constant :
    let u : Term := .abs ⟨0, 4⟩ "y" (.var ⟨0, 5⟩ "y")
    let b : Term := .abs ⟨0, 2⟩ "y" (.app ⟨0, 3⟩ (.var ⟨0, 6⟩ "x") (.var ⟨0, 7⟩ "y"))
    let e : Term := .app ⟨0, 0⟩ (.abs ⟨0, 1⟩ "x" b) u
    let v : Term := .abs ⟨0, 2⟩ "y" (.app ⟨0, 3⟩ u (.var ⟨0, 7⟩ "y"))
    e.WellFormed ∧ e.Closed ∧ Returns (bySubstitution ⟨true, true⟩ · e) (some v) ∧ v.Closed ∧
      e.Substitutes "x" u b ∧ Term.substAvoiding "x" u b = .ok v := by
  intro u b e v
  have he : e.WellFormed := by decide
  have hc : e.Closed := by
    intro x hx
    have hmem := (Term.isFree_iff_mem (rfl : e.free = .ok [])).mp hx
    exact List.not_mem_nil hmem
  have hv : Returns (bySubstitution ⟨true, true⟩ · e) (some v) := ⟨_, by simp, 5, rfl⟩
  have hsub : e.Substitutes "x" u b :=
    ⟨⟨0, 0⟩, ⟨0, 1⟩, .abs ⟨0, 1⟩ "x" b, u, .refl, ⟨[], by simp, 1, rfl⟩, ⟨[], by simp, 1, rfl⟩⟩
  obtain ⟨hfree, hrun⟩ := bySubstitution_hygienic he
  obtain ⟨t, ht, havoid⟩ := (hrun hc).2.2 "x" u b hsub
  cases (rfl : Term.subst "x" u b = .ok v).symm.trans ht
  exact ⟨he, hc, hv, fun x hx => hc x ((hfree _ v hv).2 x hx), hsub, havoid⟩

end EffectCalculus
