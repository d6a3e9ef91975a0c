import EffectCalculus.Proofs.Eval.Log

/-!
# Two ways to fail

The two evaluators in an environment do the same until something fails; then the fatal one ends with
an error, and the optional one notes the failure and has no result.

* `EvalError.note?`: the note that says of a failure what its error says;
* `Outcome.optional`, `Outcome.report`: an outcome of the fatal evaluator as one of the optional
  evaluator, and what the latter notes at its end;
* `Parallel`, `inEnv_parallel`: **the evaluators go in step**, with one bound and one environment;
* `inEnv?_follows_inEnv`: how their results, failures and logs correspond.
-/

namespace EffectCalculus

open Eval

/-! ## Outcomes -/

/-- The note on a failure of evaluation proper. -/
def EvalError.note? : EvalError → Option Note
  | .unbound x pos => some (.unbound x pos)
  | .notClosure v pos => some (.notClosure v pos)
  | .notNumbers _ _ pos => some (.notNumbers pos)
  | .notExpression _ | .notValue _ => none

namespace Outcome

variable {α : Type}

/-- The outcome with failures of evaluation proper as missing results. -/
def optional : Outcome EvalError α → Outcome EvalError (Option α)
  | .done a => .done (some a)
  | .fault err => if err.pos?.isSome then .done none else .fault err
  | .unfinished => .unfinished

/-- What is noted about the outcome. -/
def report : Outcome EvalError α → List Note
  | .fault err => err.note?.toList
  | _ => []

theorem optional_fault {err : EvalError} (h : err.pos?.isSome = true) :
    optional (.fault err : Outcome EvalError α) = .done none := by
  simp [optional, h]

theorem optional_fault_of_none {err : EvalError} (h : err.pos? = none) :
    optional (.fault err : Outcome EvalError α) = .fault err := by
  simp [optional, h]

theorem optional_ne_unfinished {out : Outcome EvalError α} :
    out.optional ≠ .unfinished ↔ out ≠ .unfinished := by
  cases out with
  | done a => simp [optional]
  | unfinished => simp [optional]
  | fault err => by_cases h : err.pos?.isSome = true <;> simp [optional, h]

theorem optional_eq_some {out : Outcome EvalError α} {a : α} :
    out.optional = .done (some a) ↔ out = .done a := by
  cases out with
  | done b => simp [optional]
  | unfinished => simp [optional]
  | fault err => by_cases h : err.pos?.isSome = true <;> simp [optional, h]

theorem optional_eq_none {out : Outcome EvalError α} :
    out.optional = .done none ↔ ∃ err : EvalError, err.pos?.isSome = true ∧ out = .fault err := by
  cases out with
  | done b => simp [optional]
  | unfinished => simp [optional]
  | fault err => by_cases h : err.pos?.isSome = true <;> simp [optional, h]

theorem optional_eq_fault {out : Outcome EvalError α} {err : EvalError} :
    out.optional = .fault err ↔ err.pos? = none ∧ out = .fault err := by
  cases out with
  | done b => simp [optional]
  | unfinished => simp [optional]
  | fault err' =>
    by_cases h : err'.pos? = none
    · rw [optional_fault_of_none h]
      constructor
      · rintro ⟨⟩
        exact ⟨h, rfl⟩
      · rintro ⟨-, ⟨⟩⟩
        rfl
    · rw [optional_fault (Option.isSome_iff_ne_none.mpr h)]
      constructor
      · rintro ⟨⟩
      · rintro ⟨hp, ⟨⟩⟩
        exact absurd hp h

end Outcome

/-- Exactly the failures that have a position have a note. -/
theorem EvalError.note?_isSome {err : EvalError} :
    (∃ note, err.note? = some note) ↔ err.pos?.isSome = true := by
  cases err <;> simp [note?, pos?]

/-- A report is about no term. -/
theorem visited_report (w : Watch) {α : Type} (out : Outcome EvalError α) :
    visited (w.kept out.report) = [] := by
  cases hw : w.verbose with
  | false => simp [Watch.kept, hw, visited]
  | true =>
    simp only [Watch.kept, hw, ↓reduceIte]
    cases out with
    | done | unfinished => rfl
    | fault err => cases err <;> rfl

/-! ## In step -/

/-- Both begin with the same terms; `m` ends with an error where `m'` notes it and has no result. -/
def Parallel {α : Type} (w : Watch) (m : Eval α) (m' : Eval (Option α)) : Prop :=
  ∃ out terms, m.Ends out (w.traced .environment terms) ∧
    m'.Ends out.optional (w.traced .optional terms ++ w.kept out.report)

namespace Parallel

variable {α β : Type} {w : Watch}

theorem pure (a : α) : Parallel w (Pure.pure a) (Pure.pure (some a)) := by
  refine ⟨.done a, [], ?_, ?_⟩
  · simpa using ends_pure a
  · simpa [Outcome.report, Outcome.optional] using ends_pure (some a)

theorem unfinished : Parallel w (Run.unfinished : Eval α) Run.unfinished := by
  refine ⟨.unfinished, [], ?_, ?_⟩
  · simpa using ends_unfinished
  · simpa [Outcome.report, Outcome.optional] using ends_unfinished

theorem misplaced (a : Atom) :
    Parallel w (Run.fault (.notExpression a) : Eval α) (Run.fault (.notExpression a)) := by
  refine ⟨.fault (.notExpression a), [], ?_, ?_⟩
  · simpa using ends_fault _
  · rw [Outcome.optional_fault_of_none rfl]
    simpa [Outcome.report, EvalError.note?] using ends_fault _

/-- A failure with its note. -/
theorem fail {err : EvalError} {note : Note} (h : err.note? = some note)
    (hp : err.pos?.isSome = true) :
    Parallel w (Run.fault err : Eval α) (w.note note >>= fun _ => Pure.pure none) := by
  refine ⟨.fault err, [], ?_, ?_⟩
  · simpa using ends_fault err
  · rw [Outcome.optional_fault hp]
    simpa [Outcome.report, h] using ends_note_none w note

theorem bind {m : Eval α} {m' : Eval (Option α)} {k : α → Eval β} {k' : α → Eval (Option β)}
    (hm : Parallel w m m') (hk : ∀ a, Parallel w (k a) (k' a)) :
    Parallel w (m >>= k) (m'.andThen k') := by
  obtain ⟨out, terms, h, h'⟩ := hm
  cases out with
  | done a =>
    obtain ⟨out₂, terms₂, h₂, h₂'⟩ := hk a
    simp only [Outcome.report, Watch.kept_nil, List.append_nil] at h'
    refine ⟨out₂, terms ++ terms₂, ?_, ?_⟩
    · rw [Watch.traced_append]
      exact h.bind_done h₂
    · rw [Watch.traced_append, List.append_assoc]
      exact h'.andThen_some h₂'
  | unfinished => exact ⟨.unfinished, terms, h.bind_unfinished k, h'.andThen_unfinished k'⟩
  | fault err =>
    refine ⟨.fault err, terms, h.bind_fault k, ?_⟩
    by_cases hp : err.pos?.isSome = true
    · rw [Outcome.optional_fault hp] at h' ⊢
      exact h'.andThen_none k'
    · rw [Outcome.optional_fault_of_none (Option.not_isSome_iff_eq_none.mp hp)] at h' ⊢
      exact h'.andThen_fault k'

theorem visit {m : Eval α} {m' : Eval (Option α)} (e : Term) (h : Parallel w m m') :
    Parallel w (w.visit .environment e >>= fun _ => m) (w.visit .optional e >>= fun _ => m') := by
  obtain ⟨out, terms, hm, hm'⟩ := h
  rcases w.visit_cases e with hv | ⟨a, hv⟩
  · refine ⟨out, [e] ++ terms, ?_, ?_⟩
    · rw [Watch.traced_append]
      exact (hv .environment).bind_done hm
    · rw [Watch.traced_append, List.append_assoc]
      exact (hv .optional).bind_done hm'
  · refine ⟨.fault (.notExpression a), [], ?_, ?_⟩
    · simpa using (hv .environment).bind_fault _
    · rw [Outcome.optional_fault_of_none rfl]
      simpa [Outcome.report, EvalError.note?] using (hv .optional).bind_fault _

end Parallel

/-- **The evaluators go in step.** -/
theorem inEnv_parallel (w : Watch) (n : Nat) (e : Term) (env : Env) :
    Parallel w (inEnv w n e env) (inEnv? w n e env) := by
  induction n generalizing e env with
  | zero => exact Parallel.unfinished
  | succ n ih =>
    unfold inEnv inEnv?
    apply Parallel.visit
    cases e with
    | var pos x =>
      cases hx : env.find? x with
      | some v => simpa only [hx] using Parallel.pure v
      | none =>
        simp only [hx]
        exact Parallel.fail rfl rfl
    | abs pos x b => exact Parallel.pure _
    | num pos k => exact Parallel.pure _
    | atom a => exact Parallel.misplaced a
    | app pos f a =>
      refine (ih f env).bind fun callee => ?_
      cases callee with
      | closure inner x b => exact (ih a env).bind fun v => ih b _
      | num | atom => exact Parallel.fail rfl rfl
    | add pos l r =>
      refine (ih l env).bind fun u => (ih r env).bind fun v => ?_
      cases u with
      | num i =>
        cases v with
        | num j => exact Parallel.pure _
        | closure | atom => exact Parallel.fail rfl rfl
      | closure | atom => exact Parallel.fail rfl rfl

/-! ## Results, failures and logs -/

theorem inEnv?_settles_iff (w : Watch) (e : Term) (env : Env)
    (out? : Outcome EvalError (Option Value)) (log? : List Note) :
    Settles (inEnv? w · e env) out? log? ↔
      ∃ out log, Settles (inEnv w · e env) out log ∧ out.optional = out? ∧
        log.map (Note.relabel .optional) ++ w.kept out.report = log? := by
  constructor
  · rintro ⟨hout, n, hn⟩
    obtain ⟨out, terms, h, h'⟩ := inEnv_parallel w n e env
    obtain ⟨rfl, rfl⟩ := Prod.mk.inj (h'.eq.symm.trans hn)
    refine ⟨out, _, ⟨Outcome.optional_ne_unfinished.mp hout, n, h.eq⟩, rfl, ?_⟩
    rw [Watch.map_relabel_traced]
  · rintro ⟨out, log, ⟨hout, n, hn⟩, rfl, rfl⟩
    obtain ⟨out', terms, h, h'⟩ := inEnv_parallel w n e env
    obtain ⟨rfl, rfl⟩ := Prod.mk.inj (h.eq.symm.trans hn)
    refine ⟨Outcome.optional_ne_unfinished.mpr hout, n, ?_⟩
    rw [Watch.map_relabel_traced]
    exact h'.eq

/-- The fatal evaluator notes nothing but the terms it begins with. -/
theorem inEnv_log_quiet {w : Watch} (hw : w.tracing = false) {e : Term} {env : Env}
    {out : Outcome EvalError Value} {log : List Note} (h : Settles (inEnv w · e env) out log) :
    log = [] := by
  obtain ⟨-, n, hn⟩ := h
  obtain ⟨out', terms, h, -⟩ := inEnv_parallel w n e env
  obtain ⟨-, rfl⟩ := Prod.mk.inj (h.eq.symm.trans hn)
  exact Watch.traced_quiet _ hw terms

theorem visited_inEnv? (w : Watch) (n : Nat) (e : Term) (env : Env) :
    visited (inEnv? w n e env []).2 = visited (inEnv w n e env []).2 := by
  obtain ⟨out, terms, h, h'⟩ := inEnv_parallel w n e env
  rw [h.eq, h'.eq, visited_append, visited_report, List.append_nil, Watch.visited_traced,
    Watch.visited_traced]

section Results

variable (w : Watch) (e : Term) (env : Env)

theorem inEnv_returns_iff (v : Value) :
    Returns (inEnv w · e env) v ↔ Returns (inEnv? w · e env) (some v) := by
  simp only [Returns, inEnv?_settles_iff, Outcome.optional_eq_some]
  constructor
  · rintro ⟨log, h⟩
    exact ⟨_, _, log, h, rfl, rfl⟩
  · rintro ⟨_, _, log, h, rfl, -⟩
    exact ⟨log, h⟩

theorem inEnv_fails_iff :
    (∃ err : EvalError, err.pos?.isSome = true ∧ Raises (inEnv w · e env) err) ↔
      Returns (inEnv? w · e env) none := by
  simp only [Returns, inEnv?_settles_iff, Outcome.optional_eq_none]
  constructor
  · rintro ⟨err, hp, log, h⟩
    exact ⟨_, _, log, h, ⟨err, hp, rfl⟩, rfl⟩
  · rintro ⟨_, _, log, h, ⟨err, hp, rfl⟩, -⟩
    exact ⟨err, hp, log, h⟩

/-- Errors without a position are about atoms, and are raised by both. -/
theorem inEnv_raises_iff (err : EvalError) :
    (err.pos? = none ∧ Raises (inEnv w · e env) err) ↔ Raises (inEnv? w · e env) err := by
  simp only [Raises, inEnv?_settles_iff, Outcome.optional_eq_fault]
  constructor
  · rintro ⟨hp, log, h⟩
    exact ⟨_, _, log, h, ⟨hp, rfl⟩, rfl⟩
  · rintro ⟨_, _, log, h, ⟨hp, rfl⟩, -⟩
    exact ⟨hp, log, h⟩

theorem inEnv_halts_iff : Halts (inEnv w · e env) ↔ Halts (inEnv? w · e env) := by
  simp only [Halts, inEnv?_settles_iff]
  constructor
  · rintro ⟨out, log, h⟩
    exact ⟨_, _, out, log, h, rfl, rfl⟩
  · rintro ⟨_, _, out, log, h, -⟩
    exact ⟨out, log, h⟩

end Results

section Untraced

variable {w : Watch} (hw : w.tracing = false) (e : Term) (env : Env)

include hw

theorem inEnv?_some_log_iff (v : Value) (log : List Note) :
    Settles (inEnv? w · e env) (.done (some v)) log ↔
      Returns (inEnv w · e env) v ∧ log = [] := by
  simp only [Returns, inEnv?_settles_iff, Outcome.optional_eq_some]
  constructor
  · rintro ⟨_, log', h, rfl, rfl⟩
    obtain rfl := inEnv_log_quiet hw h
    exact ⟨⟨_, h⟩, by simp [Outcome.report]⟩
  · rintro ⟨⟨log', h⟩, rfl⟩
    obtain rfl := inEnv_log_quiet hw h
    exact ⟨_, _, h, rfl, by simp [Outcome.report]⟩

theorem inEnv?_none_log_iff (log : List Note) :
    Settles (inEnv? w · e env) (.done none) log ↔
      ∃ err note, Raises (inEnv w · e env) err ∧ err.note? = some note ∧ log = w.kept [note] := by
  simp only [Raises, inEnv?_settles_iff, Outcome.optional_eq_none]
  constructor
  · rintro ⟨_, log', h, ⟨err, hp, rfl⟩, rfl⟩
    obtain rfl := inEnv_log_quiet hw h
    obtain ⟨note, hnote⟩ := EvalError.note?_isSome.mpr hp
    exact ⟨err, note, ⟨_, h⟩, hnote, by simp [Outcome.report, hnote]⟩
  · rintro ⟨err, note, ⟨log', h⟩, hnote, rfl⟩
    obtain rfl := inEnv_log_quiet hw h
    have hp : err.pos?.isSome = true := EvalError.note?_isSome.mp ⟨note, hnote⟩
    exact ⟨_, _, h, ⟨err, hp, rfl⟩, by simp [Outcome.report, hnote]⟩

end Untraced

/-- The two evaluators have the same results, report the same atoms and end together, whatever is
watched, and begin with the same terms. Where the fatal one fails, the optional one has no result
and has noted that failure; else, and if no terms are traced, it has noted nothing. -/
theorem inEnv?_follows_inEnv (e : Term) (env : Env) :
    (∀ w, (∀ v, Returns (inEnv w · e env) v ↔ Returns (inEnv? w · e env) (some v)) ∧
      ((∃ err : EvalError, err.pos?.isSome = true ∧ Raises (inEnv w · e env) err) ↔
        Returns (inEnv? w · e env) none) ∧
      (∀ err : EvalError, (err.pos? = none ∧ Raises (inEnv w · e env) err) ↔
        Raises (inEnv? w · e env) err) ∧
      (Halts (inEnv w · e env) ↔ Halts (inEnv? w · e env)) ∧
      (∀ n, visited (inEnv? w n e env []).2 = visited (inEnv w n e env []).2)) ∧
    (∀ v log, Settles (inEnv? ⟨false, true⟩ · e env) (.done (some v)) log ↔
      Returns (inEnv ⟨false, true⟩ · e env) v ∧ log = []) ∧
    (∀ log, Settles (inEnv? ⟨false, true⟩ · e env) (.done none) log ↔
      ∃ err note, Raises (inEnv ⟨false, true⟩ · e env) err ∧ err.note? = some note ∧
        log = [note]) := by
  refine ⟨fun w => ⟨?_, ?_, ?_, ?_, ?_⟩, ?_, ?_⟩
  · exact inEnv_returns_iff w e env
  · exact inEnv_fails_iff w e env
  · exact inEnv_raises_iff w e env
  · exact inEnv_halts_iff w e env
  · exact fun n => visited_inEnv? w n e env
  · exact inEnv?_some_log_iff rfl e env
  · exact inEnv?_none_log_iff rfl e env

end EffectCalculus
