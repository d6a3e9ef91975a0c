import EffectCalculus.Proofs.Eval.Block
import EffectCalculus.Proofs.Eval.Failure
import EffectCalculus.Proofs.Value.Show

/-!
# Watching changes no outcome

Each of the four evaluators ends as it ends unwatched, whatever is watched, unless something was to
be noted that cannot be put into words. Two notes can fail like that: the one on a term that is
begun with, and the one on the value of a whole program. Both need an atom, so without atoms the
outcome is the same in any case.

* `Value.render_error`: what goes wrong in wording a value;
* `byBlock_undisturbed`, `inEnv?_undisturbed`, `evaluate_undisturbed`: the other three evaluators go
  in step too;
* `Terse`: what cannot be noted, by the switches alone;
* `Unobtrusive`, `evaluators_unobtrusive`: **watching is unobtrusive**.
-/

namespace EffectCalculus

open Eval

/-! ## Notes that cannot be worded -/

/-- An atom stands in the place of a term or of a value. -/
def EvalError.Misplaced (err : EvalError) : Prop := ∃ a, err = .notExpression a ∨ err = .notValue a

theorem Term.misplaced_of_text {e : Term} {err : EvalError} (h : e.text = .error err) :
    err.Misplaced := by
  obtain ⟨a, rfl, -⟩ := Term.text_error h
  exact ⟨a, .inl rfl⟩

namespace Value

theorem renderBindings_error {each : List (String × Except EvalError String)} {err : EvalError}
    (h : renderBindings each = .error err) : ∃ p ∈ each, p.2 = .error err := by
  induction each with
  | nil => cases h
  | cons p rest ih =>
    obtain ⟨x, result⟩ := p
    cases result with
    | error err' =>
      cases h
      exact ⟨(x, .error err), List.mem_cons_self, rfl⟩
    | ok s =>
      cases hrest : renderBindings rest with
      | ok us => simp [renderBindings, hrest, bind, Except.bind, pure, Except.pure] at h
      | error err' =>
        have herr : err' = err := by
          simpa [renderBindings, hrest, bind, Except.bind] using h
        obtain ⟨q, hq, hqerr⟩ := ih (herr ▸ hrest)
        exact ⟨q, List.mem_cons_of_mem _ hq, hqerr⟩

mutual
/-- Wording a value fails only on an atom. -/
theorem render_error {err : EvalError} : (v : Value) → v.render = .error err → err.Misplaced
  | .num n, h => nomatch h
  | .atom a, h => ⟨a, .inr (Except.error.inj h).symm⟩
  | .closure env x b, h => by
    cases henv : renderBindings (sortByName (renderEach env)) with
    | error err' =>
      have herr : err' = err := by simpa [render, henv, bind, Except.bind] using h
      obtain ⟨p, hp, hperr⟩ := renderBindings_error (herr ▸ henv)
      exact renderEach_error env p ((sortByName_perm _).mem_iff.mp hp) hperr
    | ok ts =>
      cases hb : b.render with
      | ok t => simp [render, henv, hb, bind, Except.bind, pure, Except.pure] at h
      | error err' =>
        have herr : err' = err := by simpa [render, henv, hb, bind, Except.bind] using h
        obtain ⟨a, ha, -⟩ := Term.render_error (herr ▸ hb)
        exact ⟨a, .inl ha⟩

theorem renderEach_error {err : EvalError} : (env : List (String × Value)) →
    ∀ p ∈ renderEach env, p.2 = .error err → err.Misplaced
  | [], _, hp, _ => nomatch hp
  | (x, v) :: rest, p, hp, hperr => by
    rw [renderEach, List.mem_cons] at hp
    rcases hp with rfl | hp
    · exact render_error v hperr
    · exact renderEach_error rest p hp hperr
end

end Value

theorem Note.visit_message_error {e : Term} {err : EvalError} (h : e.text = .error err)
    (who : Evaluator) : (Note.visit who e).message = .error err := by
  simp [Note.message, h, bind, Except.bind]

theorem Note.result_message_ok {v : Value} {s : String} (h : v.render = .ok s) :
    ∃ text, (Note.result v).message = .ok text := by
  simp [Note.message, h, bind, Except.bind, pure, Except.pure]

theorem Note.result_message_error {v : Value} {err : EvalError} (h : v.render = .error err) :
    (Note.result v).message = .error err := by
  simp [Note.message, h, bind, Except.bind]

/-! ## The other evaluators -/

section Undisturbed

variable {clean : Prop} {w w' : Watch}

theorem byBlock_undisturbed (hw : w'.Discreet w) (n : Nat) {e : Term} (he : clean → e.WellFormed) :
    Undisturbed (fun err => ¬ clean ∧ w.Balks err) (fun _ => True) (byBlock w n e)
      (byBlock w' n e) := by
  obtain ⟨out, terms, extra, h, hblock, -⟩ := bySubstitution_echo w n e
  obtain ⟨out', terms', extra', h', hblock', -⟩ := bySubstitution_echo w' n e
  rw [Watch.traced_quiet _ hw.1] at hblock'
  obtain ⟨err, notes, hX, hends⟩ | ⟨common, notes, notes', hends, hends', -⟩ :=
    bySubstitution_undisturbed hw n he
  · obtain ⟨rfl, -⟩ := Prod.mk.inj (h.eq.symm.trans hends.eq)
    exact .inl ⟨err, _, hX, hblock⟩
  · obtain ⟨rfl, -⟩ := Prod.mk.inj (h.eq.symm.trans hends.eq)
    obtain ⟨rfl, -⟩ := Prod.mk.inj (h'.eq.symm.trans hends'.eq)
    exact Undisturbed.of_ends hblock hblock' (List.nil_sublist _) fun _ _ => trivial

theorem inEnv?_undisturbed (hw : w'.Discreet w) (n : Nat) {e : Term} (he : clean → e.WellFormed)
    {env : Env} (henv : clean → Env.WellFormed env) :
    Undisturbed (fun err => ¬ clean ∧ w.Balks err) (fun _ => True) (inEnv? w n e env)
      (inEnv? w' n e env) := by
  obtain ⟨out, terms, h, h?⟩ := inEnv_parallel w n e env
  obtain ⟨out', terms', h', h?'⟩ := inEnv_parallel w' n e env
  rw [Watch.traced_quiet _ hw.1, List.nil_append] at h?'
  obtain ⟨err, notes, hX, hends⟩ | ⟨common, notes, notes', hends, hends', -⟩ :=
    inEnv_undisturbed hw n he henv
  · obtain ⟨rfl, -⟩ := Prod.mk.inj (h.eq.symm.trans hends.eq)
    obtain ⟨-, -, t, ht⟩ := id hX
    obtain ⟨a, rfl, -⟩ := Term.text_error ht
    exact .inl ⟨_, _, hX, h?⟩
  · obtain ⟨rfl, -⟩ := Prod.mk.inj (h.eq.symm.trans hends.eq)
    obtain ⟨rfl, -⟩ := Prod.mk.inj (h'.eq.symm.trans hends'.eq)
    refine Undisturbed.of_ends h? h?' ?_ fun _ _ => trivial
    exact (hw.kept _).trans (List.sublist_append_right _ _)

/-- Noting the value of a program fails where the value cannot be worded, and then only in the
evaluation that notes it. -/
theorem Eval.Undisturbed.result (hw : w'.Discreet w) {v : Value} (hv : clean → v.WellFormed) :
    Undisturbed
      (fun err => ¬ clean ∧ w'.verbose = false ∧ ∃ v : Value, v.render = .error err)
      (fun _ => True)
      (do if w.verbose then w.noteWorded (.result v)
          return v)
      (do if w'.verbose then w'.noteWorded (.result v)
          return v) := by
  cases hverbose : w.verbose with
  | false =>
    have hverbose' : w'.verbose = false := by
      by_contra h
      exact absurd (hw.2 (by simpa using h)) (by simp [hverbose])
    rw [hverbose']
    exact Undisturbed.pure trivial
  | true =>
    cases hrender : v.render with
    | ok s =>
      obtain ⟨text, hmessage⟩ := Note.result_message_ok hrender
      simp only [Watch.noteWorded, hmessage, ↓reduceIte]
      cases hverbose' : w'.verbose with
      | true => exact (Undisturbed.note hw _).bind fun _ _ => Undisturbed.pure trivial
      | false =>
        exact Undisturbed.of_ends ((ends_note w _).bind_done (ends_pure v)) (ends_pure v)
          (List.nil_sublist _) fun _ _ => trivial
    | error err =>
      have hmessage : (Note.result v).message = .error err := Note.result_message_error hrender
      simp only [Watch.noteWorded, hmessage, ↓reduceIte]
      cases hverbose' : w'.verbose with
      | true => exact Undisturbed.fault err
      | false =>
        refine Undisturbed.of_fault ⟨fun hc => ?_, rfl, v, hrender⟩
        obtain ⟨s, hs⟩ := (hv hc).exists_render
        rw [hs] at hrender
        cases hrender

theorem evaluate_undisturbed (hw : w'.Discreet w) (n : Nat) {e : Term} (he : clean → e.WellFormed)
    {env : Env} (henv : clean → Env.WellFormed env) :
    Undisturbed
      (fun err => ¬ clean ∧
        (w.Balks err ∨ w'.verbose = false ∧ ∃ v : Value, v.render = .error err)) (fun _ => True)
      (evaluate w n e env) (evaluate w' n e env) := by
  refine ((inEnv_undisturbed hw n he henv).mono ?_ fun _ hv => hv).bind fun v hv => ?_
  · exact fun err hX => ⟨hX.1, .inl hX.2⟩
  · exact (Undisturbed.result hw hv).mono (fun err hX => ⟨hX.1, .inr hX.2⟩) fun _ h => h

end Undisturbed

/-! ## What cannot be noted -/

/-- `m` notes nothing unless notes are let in; if terms are not traced either, a run that fails
notes nothing in any case. -/
def Eval.Terse {α : Type} (w : Watch) (m : Eval α) : Prop :=
  ∃ out notes, m.Ends out notes ∧ (w.verbose = false → notes = []) ∧
    (w.tracing = false → (∃ err, out = .fault err) → notes = [])

theorem Watch.kept_quiet {w : Watch} (h : w.verbose = false) (notes : List Note) :
    w.kept notes = [] := by
  simp [Watch.kept, h]

theorem Watch.traced_of_not_verbose {w : Watch} (h : w.verbose = false) (who : Evaluator)
    (terms : List Term) : w.traced who terms = [] := by
  simp [Watch.traced, Watch.kept_quiet h]

theorem byBlock_terse (w : Watch) (n : Nat) (e : Term) : Terse w (byBlock w n e) := by
  obtain ⟨out, terms, extra, -, h, -⟩ := bySubstitution_echo w n e
  exact ⟨out, _, h, fun hv => Watch.traced_of_not_verbose hv _ _,
    fun ht _ => Watch.traced_quiet _ ht _⟩

theorem bySubstitution_terse (w : Watch) (n : Nat) (e : Term) : Terse w (bySubstitution w n e) := by
  obtain ⟨out, terms, extra, h, -, hextra⟩ := bySubstitution_echo w n e
  refine ⟨out, _, h, fun hv => ?_, fun ht => ?_⟩
  · rw [Watch.traced_of_not_verbose hv, Watch.kept_quiet hv]
    rfl
  · rintro ⟨err, rfl⟩
    rw [Watch.traced_quiet _ ht, hextra.eq_nil (by simp), Watch.kept_nil]
    rfl

theorem inEnv?_terse (w : Watch) (n : Nat) (e : Term) (env : Env) : Terse w (inEnv? w n e env) := by
  obtain ⟨out, terms, -, h⟩ := inEnv_parallel w n e env
  refine ⟨out.optional, _, h, fun hv => ?_, fun ht => ?_⟩
  · rw [Watch.traced_of_not_verbose hv, Watch.kept_quiet hv]
    rfl
  · rintro ⟨err, herr⟩
    obtain ⟨hpos, rfl⟩ := Outcome.optional_eq_fault.mp herr
    have hnote : err.note? = none := by
      cases err with
      | notExpression | notValue => rfl
      | _ => cases hpos
    rw [Watch.traced_quiet _ ht, Outcome.report, hnote]
    exact w.kept_nil

/-- The note on the value is the last thing that an evaluation does. -/
theorem evaluate_terse (w : Watch) (n : Nat) (e : Term) (env : Env) :
    Terse w (evaluate w n e env) := by
  obtain ⟨out, terms, h, -⟩ := inEnv_parallel w n e env
  have hquiet : w.tracing = false → w.traced .environment terms = [] :=
    fun ht => Watch.traced_quiet _ ht _
  have hsilent : w.verbose = false → w.traced .environment terms = [] :=
    fun hv => Watch.traced_of_not_verbose hv _ _
  cases out with
  | fault err => exact ⟨_, _, h.bind_fault _, hsilent, fun ht _ => hquiet ht⟩
  | unfinished => exact ⟨_, _, h.bind_unfinished _, hsilent, fun ht _ => hquiet ht⟩
  | done v =>
    have hlast : ∃ out notes, Ends (do
        if w.verbose then w.noteWorded (.result v)
        return v) out notes ∧ (w.verbose = false → notes = []) ∧
        ((∃ err, out = .fault err) → notes = []) := by
      cases hv : w.verbose with
      | false => exact ⟨_, _, ends_pure v, fun _ => rfl, fun _ => rfl⟩
      | true =>
        cases hm : (Note.result v).message with
        | ok s =>
          refine ⟨.done v, w.kept [.result v] ++ [], ?_, nofun, nofun⟩
          simp only [Watch.noteWorded, hm, ↓reduceIte]
          exact (ends_note w _).bind_done (ends_pure v)
        | error err =>
          refine ⟨.fault err, [], ?_, nofun, fun _ => rfl⟩
          simp only [Watch.noteWorded, hm, ↓reduceIte]
          exact (ends_fault err).bind_fault _
    obtain ⟨out, notes, hends, hverbose, hfault⟩ := hlast
    refine ⟨out, _, h.bind_done hends, fun hv => ?_, fun ht herr => ?_⟩
    · rw [hsilent hv, hverbose hv]
      rfl
    · rw [hquiet ht, hfault herr]
      rfl

/-! ## All evaluators -/

/-- Watching `f` does not get in its way. `clean` says that there are no atoms. -/
structure Unobtrusive {α : Type} (clean : Prop) (f : Watch → Nat → Eval α) : Prop where
  /-- A watched run ends as the unwatched one does, or fails to put a note into words. -/
  outcome : ∀ w n, (f w n []).1 = (f .off n []).1 ∨
    ∃ note err, Note.message note = .error err ∧ err.Misplaced ∧ (f w n []).1 = .fault err
  outcome_eq : clean → ∀ w n, (f w n []).1 = (f .off n []).1
  silent : ∀ w n, w.verbose = false → (f w n []).2 = []
  /-- Tracing changes the outcome only by failing to put a term into words. -/
  tracing : ∀ n, (f ⟨true, true⟩ n []).1 ≠ (f ⟨false, true⟩ n []).1 →
    ∃ who e err, (Note.visit who e).message = .error err ∧ (f ⟨true, true⟩ n []).1 = .fault err
  /-- Otherwise tracing adds to the log, and leaves out nothing. -/
  sublist : ∀ n, (f ⟨true, true⟩ n []).1 = (f ⟨false, true⟩ n []).1 →
    (f ⟨false, true⟩ n []).2.Sublist (f ⟨true, true⟩ n []).2

theorem Unobtrusive.of_undisturbed {α : Type} {clean : Prop} {f : Watch → Nat → Eval α}
    (hterse : ∀ w n, Terse w (f w n))
    (h : ∀ w w' : Watch, w'.Discreet w → ∀ n, Undisturbed
      (fun err => ¬ clean ∧
        (w.Balks err ∨ w'.verbose = false ∧ ∃ v : Value, v.render = .error err)) (fun _ => True)
      (f w n) (f w' n)) : Unobtrusive clean f where
  outcome w n := by
    obtain ⟨err, notes, ⟨-, ⟨-, e, he⟩ | ⟨-, v, hv⟩⟩, hends⟩ |
      ⟨out, notes, notes', hends, hends', -⟩ :=
      h w .off w.off_discreet n
    · exact .inr ⟨.visit .substitution e, err, Note.visit_message_error he _,
        Term.misplaced_of_text he, by rw [hends.eq]⟩
    · exact .inr ⟨.result v, err, Note.result_message_error hv, v.render_error hv,
        by rw [hends.eq]⟩
    · exact .inl (by rw [hends.eq, hends'.eq])
  outcome_eq hc w n := by
    obtain ⟨err, notes, ⟨hnot, -⟩, -⟩ | ⟨out, notes, notes', hends, hends', -⟩ :=
      h w .off w.off_discreet n
    · exact absurd hc hnot
    · rw [hends.eq, hends'.eq]
  silent w n hv := by
    obtain ⟨out, notes, hends, hnotes, -⟩ := hterse w n
    rw [hends.eq]
    exact hnotes hv
  tracing n hne := by
    obtain ⟨err, notes, ⟨-, ⟨-, e, he⟩ | ⟨hv, -⟩⟩, hends⟩ |
      ⟨out, notes, notes', hends, hends', -⟩ :=
      h ⟨true, true⟩ ⟨false, true⟩ ⟨rfl, fun _ => rfl⟩ n
    · exact ⟨.substitution, e, err, Note.visit_message_error he _, by rw [hends.eq]⟩
    · cases hv
    · exact absurd (by rw [hends.eq, hends'.eq]) hne
  sublist n heq := by
    obtain ⟨err, notes, -, hends⟩ | ⟨out, notes, notes', hends, hends', hnotes, -⟩ :=
      h ⟨true, true⟩ ⟨false, true⟩ ⟨rfl, fun _ => rfl⟩ n
    · -- Then the run without tracing has failed as well, and such a run notes nothing.
      obtain ⟨out', notes', hends', -, hfault⟩ := hterse ⟨false, true⟩ n
      rw [hends.eq, hends'.eq] at heq
      rw [hends'.eq, hfault rfl ⟨err, heq.symm⟩]
      exact List.nil_sublist _
    · rw [hends.eq, hends'.eq]
      exact hnotes

/-- **Watching is unobtrusive.** For all four evaluators, on all terms and in all environments. -/
theorem evaluators_unobtrusive (e : Term) (env : Env) :
    Unobtrusive e.WellFormed (bySubstitution · · e) ∧
    Unobtrusive e.WellFormed (byBlock · · e) ∧
    Unobtrusive (e.WellFormed ∧ Env.WellFormed env) (evaluate · · e env) ∧
    Unobtrusive (e.WellFormed ∧ Env.WellFormed env) (inEnv? · · e env) := by
  refine ⟨.of_undisturbed (fun w n => bySubstitution_terse w n e) fun w w' hw n => ?_,
    .of_undisturbed (fun w n => byBlock_terse w n e) fun w w' hw n => ?_,
    .of_undisturbed (fun w n => evaluate_terse w n e env) fun w w' hw n => ?_,
    .of_undisturbed (fun w n => inEnv?_terse w n e env) fun w w' hw n => ?_⟩
  · exact (bySubstitution_undisturbed hw n id).mono (fun _ hX => ⟨hX.1, .inl hX.2⟩)
      fun _ _ => trivial
  · exact (byBlock_undisturbed hw n id).mono (fun _ hX => ⟨hX.1, .inl hX.2⟩) fun _ h => h
  · exact evaluate_undisturbed hw n And.left And.right
  · exact (inEnv?_undisturbed hw n And.left And.right).mono (fun _ hX => ⟨hX.1, .inl hX.2⟩)
      fun _ h => h

/-- An atom under a binder is met in wording the abstraction, and not in evaluating it; an atom that
a variable is bound to, in wording the result. -/
example :
    let e : Term := .abs ⟨0, 0⟩ "x" (.atom .null)
    (inEnv? .off 1 e [] []).1 = .done (some (.closure [] "x" (.atom .null))) ∧
      (inEnv? ⟨true, false⟩ 1 e [] []).1 = .fault (.notExpression .null) ∧
      (evaluate ⟨false, true⟩ 1 (.var ⟨0, 0⟩ "x") [("x", .atom .null)] []).1 =
        .fault (.notValue .null) :=
  ⟨rfl, rfl, rfl⟩

end EffectCalculus
