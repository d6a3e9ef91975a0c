import EffectCalculus.Eval.Depth
import EffectCalculus.Proofs.Run.Unbounded
import EffectCalculus.Proofs.Term.Place

/-!
# What an evaluation adds to the log

No evaluation looks at the log: it ends in the same way whatever was noted before, and adds its own
notes at the end. So an evaluation is known by its outcome and the notes that it adds.

* `Eval.Ends`: the outcome and the added notes, with one lemma for each way to go on;
* `Eval.andThen_eq_some`: where the result of a compound evaluation comes from;
* `Watch.visit_cases`, `Watch.visit_of_wellFormed`: what an evaluator does when it begins with a
  term;
* `Watch.traced`, `visited`: from the terms that were begun with to notes, and back;
* `Eval.Settles` with `Returns`, `Raises`, `Halts`, `HaltsAfter`: how an evaluation ends if its
  bound is large enough.
-/

namespace EffectCalculus

open Run

/-! ## Notes -/

/-- The notes that get into the log. -/
def Watch.kept (w : Watch) (notes : List Note) : List Note := if w.verbose then notes else []

/-- The notes of the evaluator `who` on the terms that it begins with. -/
def Watch.traced (w : Watch) (who : Evaluator) (terms : List Term) : List Note :=
  if w.tracing then w.kept (terms.map (.visit who)) else []

/-- The term that an evaluator begins with. -/
def Note.visited? : Note → Option Term
  | .visit _ e => some e
  | _ => none

/-- The terms that were begun with, in order. -/
def visited (notes : List Note) : List Term := notes.filterMap Note.visited?

/-- The same note by the evaluator `who`. -/
def Note.relabel (who : Evaluator) : Note → Note
  | .visit _ e => .visit who e
  | note => note

theorem visited_append (notes notes' : List Note) :
    visited (notes ++ notes') = visited notes ++ visited notes' :=
  List.filterMap_append

namespace Watch

variable (w : Watch) (who : Evaluator)

@[simp] theorem kept_nil : w.kept [] = [] := by
  cases h : w.verbose <;> simp [kept, h]

@[simp] theorem traced_nil : w.traced who [] = [] := by
  cases h : w.tracing <;> simp [traced, h]

theorem traced_append (terms terms' : List Term) :
    w.traced who (terms ++ terms') = w.traced who terms ++ w.traced who terms' := by
  cases ht : w.tracing <;> cases hv : w.verbose <;> simp [traced, kept, ht, hv]

theorem traced_quiet {w : Watch} (h : w.tracing = false) (terms : List Term) :
    w.traced who terms = [] := by
  simp [traced, h]

theorem visited_traced (terms : List Term) :
    visited (w.traced who terms) = if w.tracing ∧ w.verbose then terms else [] := by
  have hmap : (terms.map (Note.visit who)).filterMap Note.visited? = terms := by
    rw [List.filterMap_map]
    exact List.filterMap_some
  cases ht : w.tracing <;> cases hv : w.verbose <;> simp [traced, kept, ht, hv, visited, hmap]

theorem map_relabel_traced (who' : Evaluator) (terms : List Term) :
    (w.traced who terms).map (Note.relabel who') = w.traced who' terms := by
  have hmap : (terms.map (Note.visit who)).map (Note.relabel who') =
      terms.map (Note.visit who') := by
    rw [List.map_map]
    rfl
  cases ht : w.tracing <;> cases hv : w.verbose <;> simp [traced, kept, ht, hv, hmap]

end Watch

namespace Eval

variable {α β : Type}

/-! ## Outcome and added notes -/

/-- Whatever stands in the log, `m` ends as `out` and adds `notes`. -/
def Ends (m : Eval α) (out : Outcome EvalError α) (notes : List Note) : Prop :=
  ∀ log, m log = (out, log ++ notes)

theorem ends_pure (a : α) : Ends (pure a) (.done a) [] := fun log => by simp

theorem ends_fault (err : EvalError) : Ends (Run.fault err : Eval α) (.fault err) [] :=
  fun log => by simp

theorem ends_unfinished : Ends (Run.unfinished : Eval α) .unfinished [] := fun log => by simp

theorem ends_note (w : Watch) (note : Note) : (w.note note).Ends (.done ()) (w.kept [note]) := by
  intro log
  cases h : w.verbose <;> simp [Watch.note, Watch.kept, h]

namespace Ends

variable {m : Eval α} {k : α → Eval β} {a : α} {out : Outcome EvalError β} {err : EvalError}
  {notes notes' : List Note}

theorem eq {out : Outcome EvalError α} (h : m.Ends out notes) : m [] = (out, notes) := h []

theorem bind_done (hm : m.Ends (.done a) notes) (hk : (k a).Ends out notes') :
    Ends (m >>= k) out (notes ++ notes') := by
  intro log
  rw [Run.bind_done (hm log), hk, List.append_assoc]

theorem bind_fault (hm : m.Ends (.fault err) notes) (k : α → Eval β) :
    Ends (m >>= k) (.fault err) notes :=
  fun log => Run.bind_fault (hm log) k

theorem bind_unfinished (hm : m.Ends .unfinished notes) (k : α → Eval β) :
    Ends (m >>= k) .unfinished notes :=
  fun log => Run.bind_unfinished (hm log) k

variable {n : Eval (Option α)} {j : α → Eval (Option β)} {out? : Outcome EvalError (Option β)}

theorem andThen_some (hn : n.Ends (.done (some a)) notes) (hj : (j a).Ends out? notes') :
    (n.andThen j).Ends out? (notes ++ notes') :=
  hn.bind_done hj

theorem andThen_none (hn : n.Ends (.done none) notes) (j : α → Eval (Option β)) :
    (n.andThen j).Ends (.done none) notes := by
  have h : (n.andThen j).Ends (.done none) (notes ++ []) := hn.bind_done (ends_pure none)
  rwa [List.append_nil] at h

theorem andThen_fault (hn : n.Ends (.fault err) notes) (j : α → Eval (Option β)) :
    (n.andThen j).Ends (.fault err) notes :=
  hn.bind_fault _

theorem andThen_unfinished (hn : n.Ends .unfinished notes) (j : α → Eval (Option β)) :
    (n.andThen j).Ends .unfinished notes :=
  hn.bind_unfinished _

end Ends

theorem ends_note_none (w : Watch) (note : Note) :
    Ends (w.note note >>= fun _ => pure (none : Option α)) (.done none) (w.kept [note]) := by
  have h : Ends (w.note note >>= fun _ => pure (none : Option α)) (.done none)
      (w.kept [note] ++ []) := (ends_note w note).bind_done (ends_pure none)
  rwa [List.append_nil] at h

/-! ## Runs that end with a result -/

theorem andThen_eq_some {m : Eval (Option α)} {k : α → Eval (Option β)} {b : β}
    {log log' : List Note} :
    m.andThen k log = (.done (some b), log') ↔
      ∃ a log₁, m log = (.done (some a), log₁) ∧ k a log₁ = (.done (some b), log') := by
  constructor
  · intro h
    obtain ⟨a?, log₁, hm, hk⟩ := Run.bind_eq_done.mp h
    cases a? with
    | none => cases hk
    | some a => exact ⟨a, log₁, hm, hk⟩
  · rintro ⟨a, log₁, hm, hk⟩
    exact Run.bind_eq_done.mpr ⟨some a, log₁, hm, hk⟩

/-! ## Large enough bounds -/

/-- With a large enough bound and an empty log, `f` ends as `out` and leaves `log`. -/
def Settles (f : Nat → Eval α) (out : Outcome EvalError α) (log : List Note) : Prop :=
  Run.Settles f [] out log

def Returns (f : Nat → Eval α) (a : α) : Prop := ∃ log, Settles f (.done a) log

def Raises (f : Nat → Eval α) (err : EvalError) : Prop := ∃ log, Settles f (.fault err) log

def Halts (f : Nat → Eval α) : Prop := ∃ out log, Settles f out log

/-- `f` ends, and notes the beginning with `k` terms. -/
def HaltsAfter (f : Nat → Eval α) (k : Nat) : Prop :=
  ∃ out log, Settles f out log ∧ (visited log).length = k

theorem returns_unique {f : Nat → Eval α} (hf : Rising f) {a b : α}
    (ha : Returns f a) (hb : Returns f b) : a = b := by
  obtain ⟨log, ha⟩ := ha
  obtain ⟨log', hb⟩ := hb
  exact Outcome.done.inj (Run.settles_unique hf ha hb).1

end Eval

/-! ## Beginning with a term -/

theorem Except.bind_eq_error {ε α β : Type} {m : Except ε α} {k : α → Except ε β} {err : ε} :
    m >>= k = .error err ↔ m = .error err ∨ ∃ a, m = .ok a ∧ k a = .error err := by
  cases m <;> simp [bind, Except.bind]

/-- What stops the wording of a term is an atom in it. -/
theorem Term.render_error {e : Term} {err : EvalError} (h : e.render = .error err) :
    ∃ a, err = .notExpression a ∧ .atom a ∈ e.parts := by
  induction e with
  | var | num => cases h
  | atom a => exact ⟨a, (Except.error.inj h).symm, self_mem_parts _⟩
  | abs pos x b ih =>
    rcases Except.bind_eq_error.mp h with hb | ⟨_, -, hdone⟩
    · obtain ⟨a, ha, hmem⟩ := ih hb
      exact ⟨a, ha, by simp [parts_abs, hmem]⟩
    · cases hdone
  | app pos f c ihf ihc =>
    simp only [render, Except.bind_eq_error] at h
    rcases h with hf | ⟨_, -, hc | ⟨_, -, hdone⟩⟩
    · obtain ⟨a, ha, hmem⟩ := ihf hf
      exact ⟨a, ha, by simp [parts_app, hmem]⟩
    · obtain ⟨a, ha, hmem⟩ := ihc hc
      exact ⟨a, ha, by simp [parts_app, hmem]⟩
    · cases hdone
  | add pos l r ihl ihr =>
    simp only [render, Except.bind_eq_error] at h
    rcases h with hl | ⟨_, -, hr | ⟨_, -, hdone⟩⟩
    · obtain ⟨a, ha, hmem⟩ := ihl hl
      exact ⟨a, ha, by simp [parts_add, hmem]⟩
    · obtain ⟨a, ha, hmem⟩ := ihr hr
      exact ⟨a, ha, by simp [parts_add, hmem]⟩
    · cases hdone

theorem Term.text_error {e : Term} {err : EvalError} (h : e.text = .error err) :
    ∃ a, err = .notExpression a ∧ .atom a ∈ e.parts := by
  cases e with
  | atom a => cases h
  | _ => exact Term.render_error h

theorem Watch.visit_of_text (w : Watch) {e : Term} {s : String} (h : e.text = .ok s)
    (who : Evaluator) : (w.visit who e).Ends (.done ()) (w.traced who [e]) := by
  cases hw : w.tracing with
  | false =>
    rw [w.visit_quiet hw, Watch.traced_quiet who hw]
    exact Eval.ends_pure ()
  | true =>
    have hm : (Note.visit who e).message = .ok (who.label ++ ": " ++ s) := by
      simp [Note.message, h, bind, Except.bind, pure, Except.pure]
    simp only [Watch.visit, Watch.traced, hw, Watch.noteWorded, hm]
    exact Eval.ends_note w _

theorem Watch.visit_of_error (w : Watch) {e : Term} {err : EvalError} (h : e.text = .error err)
    (hw : w.tracing = true) (who : Evaluator) : w.visit who e = Run.fault err := by
  have hm : (Note.visit who e).message = .error err := by
    simp [Note.message, h, bind, Except.bind]
  simp only [Watch.visit, hw, Watch.noteWorded, hm, ↓reduceIte]

theorem Term.exists_text {e : Term} (h : e.WellFormed) : ∃ s, e.text = .ok s := by
  obtain ⟨s, hs⟩ := e.render_ok_iff.mpr h
  cases e with
  | atom => exact h.elim
  | _ => exact ⟨s, hs⟩

/-- Every evaluator can begin with a term without atoms. -/
theorem Watch.visit_of_wellFormed (w : Watch) {e : Term} (h : e.WellFormed) (who : Evaluator) :
    (w.visit who e).Ends (.done ()) (w.traced who [e]) := by
  obtain ⟨s, hs⟩ := Term.exists_text h
  exact w.visit_of_text hs who

/-- Beginning with a term notes it if it can be worded, and otherwise reports an atom in it. Which
of the two does not depend on the evaluator. -/
theorem Watch.visit_cases (w : Watch) (e : Term) :
    (∀ who, (w.visit who e).Ends (.done ()) (w.traced who [e])) ∨
    (∃ a, ∀ who, (w.visit who e).Ends (.fault (.notExpression a)) []) := by
  cases ht : e.text with
  | ok s => exact .inl (w.visit_of_text ht)
  | error err =>
    cases hw : w.tracing with
    | false =>
      left
      intro who
      rw [w.visit_quiet hw, Watch.traced_quiet who hw]
      exact Eval.ends_pure ()
    | true =>
      obtain ⟨a, rfl, -⟩ := Term.text_error ht
      right
      refine ⟨a, fun who => ?_⟩
      rw [w.visit_of_error ht hw who]
      exact Eval.ends_fault _

end EffectCalculus
