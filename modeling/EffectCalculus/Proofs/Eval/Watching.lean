import EffectCalculus.Proofs.Eval.Log
import EffectCalculus.Proofs.Term.Scope
import EffectCalculus.Proofs.Value.Form

/-!
# Watched evaluations

Watching adds to the log, and it puts terms into words at the moment when an evaluator begins with
them. Nothing else is done for it, so an evaluation goes the way it goes when less is watched, up to
the first term that cannot be worded. Where no atoms are about, there is no such term: substitution,
closures and extended environments bring none in.

* `Watch.Discreet`: no terms are traced, and nothing is noted that is not noted otherwise;
* `Watch.Balks`: tracing fails with an error;
* `Eval.Undisturbed`: the first of two evaluations ends like the second and notes more, or it fails
  in given ways, with one lemma for each way to go on;
* `bySubstitution_undisturbed`, `inEnv_undisturbed`: **evaluations go in step, however they are
  watched**.
-/

namespace EffectCalculus

open Eval

namespace Watch

/-- Beside `w`, `w'` traces no terms and notes nothing more. -/
def Discreet (w' w : Watch) : Prop := w'.tracing = false ∧ (w'.verbose = true → w.verbose = true)

theorem off_discreet (w : Watch) : Watch.off.Discreet w := ⟨rfl, fun h => nomatch h⟩

theorem Discreet.kept {w' w : Watch} (h : w'.Discreet w) (notes : List Note) :
    (w'.kept notes).Sublist (w.kept notes) := by
  unfold Watch.kept
  cases hv : w'.verbose with
  | false => exact List.nil_sublist _
  | true => simp [h.2 hv]

/-- Terms are traced, and one of them can be put into words only up to the error `err`. -/
def Balks (w : Watch) (err : EvalError) : Prop :=
  w.tracing = true ∧ ∃ e : Term, e.text = .error err

end Watch

namespace Eval

/-- `m` fails with an error of `X`; or it ends as `m'` does, notes at least what `m'` notes, and its
results have the property `Q`. -/
def Undisturbed {α : Type} (X : EvalError → Prop) (Q : α → Prop) (m m' : Eval α) : Prop :=
  (∃ err notes, X err ∧ m.Ends (.fault err) notes) ∨
    ∃ out notes notes', m.Ends out notes ∧ m'.Ends out notes' ∧ notes'.Sublist notes ∧
      ∀ a, out = .done a → Q a

namespace Undisturbed

variable {α β : Type} {X : EvalError → Prop} {Q : α → Prop} {R : β → Prop} {m m' : Eval α}
  {w w' : Watch}

theorem of_ends {out : Outcome EvalError α} {notes notes' : List Note} (h : m.Ends out notes)
    (h' : m'.Ends out notes') (hnotes : notes'.Sublist notes) (hout : ∀ a, out = .done a → Q a) :
    Undisturbed X Q m m' :=
  .inr ⟨out, notes, notes', h, h', hnotes, hout⟩

theorem pure {a : α} (h : Q a) : Undisturbed X Q (Pure.pure a) (Pure.pure a) :=
  of_ends (ends_pure a) (ends_pure a) (.refl _) fun _ hb => Outcome.done.inj hb ▸ h

theorem fault (err : EvalError) : Undisturbed X Q (Run.fault err) (Run.fault err) :=
  of_ends (ends_fault err) (ends_fault err) (.refl _) fun _ h => nomatch h

theorem unfinished : Undisturbed X Q Run.unfinished Run.unfinished :=
  of_ends ends_unfinished ends_unfinished (.refl _) fun _ h => nomatch h

/-- The only way to fail in `X` here. -/
theorem of_fault {err : EvalError} (h : X err) : Undisturbed X Q (Run.fault err) m' :=
  .inl ⟨err, [], h, ends_fault err⟩

theorem mono {X' : EvalError → Prop} {Q' : α → Prop} (h : Undisturbed X Q m m')
    (hX : ∀ err, X err → X' err) (hQ : ∀ a, Q a → Q' a) : Undisturbed X' Q' m m' := by
  obtain ⟨err, notes, herr, hm⟩ | ⟨out, notes, notes', hm, hm', hnotes, hout⟩ := h
  · exact .inl ⟨err, notes, hX err herr, hm⟩
  · exact of_ends hm hm' hnotes fun a ha => hQ a (hout a ha)

theorem bind {k k' : α → Eval β} (hm : Undisturbed X Q m m')
    (hk : ∀ a, Q a → Undisturbed X R (k a) (k' a)) : Undisturbed X R (m >>= k) (m' >>= k') := by
  obtain ⟨err, notes, herr, h⟩ | ⟨out, notes, notes', h, h', hnotes, hout⟩ := hm
  · exact .inl ⟨err, notes, herr, h.bind_fault k⟩
  · cases out with
    | fault err =>
      exact of_ends (h.bind_fault k) (h'.bind_fault k') hnotes fun _ hb => nomatch hb
    | unfinished =>
      exact of_ends (h.bind_unfinished k) (h'.bind_unfinished k') hnotes fun _ hb => nomatch hb
    | done a =>
      obtain ⟨err, notes₂, herr, h₂⟩ | ⟨out₂, notes₂, notes₂', h₂, h₂', hnotes₂, hout₂⟩ :=
        hk a (hout a rfl)
      · exact .inl ⟨err, _, herr, h.bind_done h₂⟩
      · exact of_ends (h.bind_done h₂) (h'.bind_done h₂') (hnotes.append hnotes₂) hout₂

theorem andThen {m m' : Eval (Option α)} {k k' : α → Eval (Option β)}
    (hm : Undisturbed X (fun r => ∀ a ∈ r, Q a) m m')
    (hk : ∀ a, Q a → Undisturbed X (fun r => ∀ b ∈ r, R b) (k a) (k' a)) :
    Undisturbed X (fun r => ∀ b ∈ r, R b) (m.andThen k) (m'.andThen k') := by
  refine hm.bind fun r hr => ?_
  cases r with
  | none => exact pure fun _ hb => nomatch hb
  | some a => exact hk a (hr a rfl)

theorem note (hw : w'.Discreet w) (n : Note) :
    Undisturbed X (fun _ => True) (w.note n) (w'.note n) :=
  of_ends (ends_note w n) (ends_note w' n) (hw.kept [n]) fun _ _ => trivial

/-- Beginning with a term fails in `X`, or it makes no difference. -/
theorem visit (hw : w'.Discreet w) (who : Evaluator) {e : Term}
    (he : ∀ err, w.tracing = true → e.text = .error err → X err) (h : Undisturbed X Q m m') :
    Undisturbed X Q (w.visit who e >>= fun _ => m) (w'.visit who e >>= fun _ => m') := by
  rw [w'.visit_quiet hw.1]
  cases ht : e.text with
  | ok s =>
    have hv : Undisturbed X (fun _ => True) (w.visit who e) (Pure.pure ()) :=
      of_ends (w.visit_of_text ht who) (ends_pure ()) (List.nil_sublist _) fun _ _ => trivial
    exact hv.bind fun _ _ => h
  | error err =>
    cases hq : w.tracing with
    | false =>
      rw [w.visit_quiet hq]
      exact h
    | true =>
      rw [w.visit_of_error ht hq]
      exact of_fault (he err hq ht)

end Undisturbed

end Eval

/-! ## Evaluators -/

variable {clean : Prop} {w w' : Watch}

/-- If terms without atoms are all there is, none balks. -/
theorem Watch.balks_of_text {e : Term} (he : clean → e.WellFormed) {err : EvalError}
    (hw : w.tracing = true) (ht : e.text = .error err) : ¬ clean ∧ w.Balks err := by
  refine ⟨fun hc => ?_, hw, e, ht⟩
  obtain ⟨s, hs⟩ := Term.exists_text (he hc)
  rw [hs] at ht
  cases ht

/-- **Evaluation by substitution.** `clean` says that there are no atoms. -/
theorem bySubstitution_undisturbed (hw : w'.Discreet w) (n : Nat) {e : Term}
    (he : clean → e.WellFormed) :
    Undisturbed (fun err => ¬ clean ∧ w.Balks err) (fun r => ∀ t ∈ r, clean → t.WellFormed)
      (bySubstitution w n e) (bySubstitution w' n e) := by
  induction n generalizing e with
  | zero => exact Undisturbed.unfinished
  | succ n ih =>
    unfold bySubstitution
    refine Undisturbed.visit hw .substitution (fun err => Watch.balks_of_text he) ?_
    cases e with
    | var pos x =>
      refine (Undisturbed.note hw _).bind fun _ _ => Undisturbed.pure fun t ht => ?_
      cases ht
    | abs pos x b | num pos k =>
      refine Undisturbed.pure fun t ht => ?_
      cases ht
      exact he
    | atom a => exact Undisturbed.fault _
    | app pos f a =>
      refine (ih fun hc => (he hc).1).andThen fun callee hcallee => ?_
      cases callee with
      | abs q x b =>
        refine (ih fun hc => (he hc).2).andThen fun v hv => ?_
        have hsubst : Undisturbed (fun err => ¬ clean ∧ w.Balks err)
            (fun t => clean → t.WellFormed) (Run.ofExcept (Term.subst x v b))
            (Run.ofExcept (Term.subst x v b)) := by
          cases hs : Term.subst x v b with
          | error err => exact Undisturbed.fault err
          | ok t =>
            refine Undisturbed.pure fun hc => ?_
            have hb : b.WellFormed := hcallee hc
            obtain ⟨t', ht, hwf⟩ := Term.exists_subst x (hv hc) hb
            cases hs.symm.trans ht
            exact hwf
        exact hsubst.bind fun t ht => ih ht
      | _ =>
        refine Undisturbed.pure fun t ht => ?_
        cases ht
    | add pos l r =>
      refine (ih fun hc => (he hc).1).andThen fun u _ => ?_
      refine (ih fun hc => (he hc).2).andThen fun v _ => ?_
      refine Undisturbed.pure fun t ht _ => ?_
      cases u <;> cases v <;> cases ht
      trivial

/-- **Evaluation in an environment.** -/
theorem inEnv_undisturbed (hw : w'.Discreet w) (n : Nat) {e : Term} (he : clean → e.WellFormed)
    {env : Env} (henv : clean → Env.WellFormed env) :
    Undisturbed (fun err => ¬ clean ∧ w.Balks err) (fun v => clean → v.WellFormed)
      (inEnv w n e env) (inEnv w' n e env) := by
  induction n generalizing e env with
  | zero => exact Undisturbed.unfinished
  | succ n ih =>
    unfold inEnv
    refine Undisturbed.visit hw .environment (fun err => Watch.balks_of_text he) ?_
    cases e with
    | var pos x =>
      cases hx : env.find? x with
      | some v =>
        simp only [hx]
        exact Undisturbed.pure fun hc => (henv hc).find? hx
      | none =>
        simp only [hx]
        exact Undisturbed.fault _
    | abs pos x b => exact Undisturbed.pure fun hc => .closure (henv hc) (he hc)
    | num pos k => exact Undisturbed.pure fun _ => .num k
    | atom a => exact Undisturbed.fault _
    | app pos f a =>
      refine (ih (fun hc => (he hc).1) henv).bind fun callee hcallee => ?_
      cases callee with
      | closure inner x b =>
        refine (ih (fun hc => (he hc).2) henv).bind fun v hv => ih (fun hc => ?_) fun hc => ?_
        · cases hcallee hc with
          | closure _ body => exact body
        · cases hcallee hc with
          | closure bindings _ => exact Env.WellFormed.extend bindings x (hv hc)
      | num | atom => exact Undisturbed.fault _
    | add pos l r =>
      refine (ih (fun hc => (he hc).1) henv).bind fun u _ => ?_
      refine (ih (fun hc => (he hc).2) henv).bind fun v _ => ?_
      cases u with
      | num i =>
        cases v with
        | num j => exact Undisturbed.pure fun _ => .num (i + j)
        | closure | atom => exact Undisturbed.fault _
      | closure | atom => exact Undisturbed.fault _

end EffectCalculus
