import EffectCalculus.Proofs.Eval.Failure
import EffectCalculus.Proofs.Eval.Hygiene

/-!
# Origin of what is evaluated

Evaluation in an environment makes no terms. All that it evaluates, and all that it puts into
closures, stands in the program from the start: in the term, or in the body of a closure that the
environment holds, be it in the environment of another closure. So an error points into the program.

* `Value.bodies`, `Written`: the bodies that a value holds, and the terms that a program holds;
* `EvalError.PointsTo`, `Note.PointsTo`: the node that an error or a note is about is one of them;
* `inEnv_keeps_origin`: **results are made of program text, and errors point to it**;
* `Job.Calls`, `Job.Reaches`: the evaluations that one evaluation makes itself, and all in its
  course; `Job.Calls.within`, `Job.Reaches.within`: they stay in the program;
* `inEnv_adds`: the log tells of evaluations made on the way only;
* `inEnv_points_into_program`: all of this for both evaluators.
-/

namespace EffectCalculus

open Run Eval

/-! ## Program text -/

namespace Value

mutual
/-- The bodies of all closures in a value, those in its environments included. -/
def bodies : Value → List Term
  | .num _ | .atom _ => []
  | .closure env _ b => b :: bodiesEach env

def bodiesEach : List (String × Value) → List Term
  | [] => []
  | (_, v) :: rest => v.bodies ++ bodiesEach rest
end

theorem mem_bodiesEach {t : Term} {env : Env} :
    t ∈ bodiesEach env ↔ ∃ p ∈ env, t ∈ p.2.bodies := by
  induction env with
  | nil => simp [bodiesEach]
  | cons p rest ih => simp [bodiesEach, ih]

/-- All bodies in the value are terms of `S`. -/
def From (S : Term → Prop) (v : Value) : Prop := ∀ b ∈ v.bodies, S b

end Value

/-- All bodies in the values of the environment are terms of `S`. -/
def Env.From (S : Term → Prop) (env : Env) : Prop := ∀ p ∈ env, p.2.From S

section From

variable {S : Term → Prop} {env : Env} {x : String} {v : Value} {b : Term}

theorem Value.from_num (n : Int) : (Value.num n).From S := by
  intro b hb
  cases hb

theorem Value.from_closure : (Value.closure env x b).From S ↔ S b ∧ Env.From S env := by
  simp only [Value.From, Env.From, Value.bodies, List.mem_cons, Value.mem_bodiesEach]
  constructor
  · intro h
    exact ⟨h b (.inl rfl), fun p hp t ht => h t (.inr ⟨p, hp, ht⟩)⟩
  · rintro ⟨hb, henv⟩ t (rfl | ⟨p, hp, ht⟩)
    · exact hb
    · exact henv p hp t ht

theorem Env.From.find? (h : Env.From S env) (hv : env.find? x = some v) : v.From S :=
  h _ (Bindings.mem_of_find? hv)

theorem Env.From.extend (h : Env.From S env) (x : String) (hv : v.From S) :
    Env.From S (env.extend x v) := by
  intro p hp
  rcases Bindings.mem_extend hp with rfl | hp
  · exact hv
  · exact h p hp

end From

/-- `S` has the parts of all its terms. -/
def Term.Downward (S : Term → Prop) : Prop := ∀ t s, S t → s ∈ t.parts → S s

namespace Term.Downward

variable {S : Term → Prop} (hS : Downward S) {pos : Pos} {x : String} {f a b l r : Term}

include hS

theorem body (h : S (.abs pos x b)) : S b :=
  hS _ b h (by simp [parts_abs, b.self_mem_parts])

theorem fn (h : S (.app pos f a)) : S f :=
  hS _ f h (by simp [parts_app, f.self_mem_parts])

theorem arg (h : S (.app pos f a)) : S a :=
  hS _ a h (by simp [parts_app, a.self_mem_parts])

theorem left (h : S (.add pos l r)) : S l :=
  hS _ l h (by simp [parts_add, l.self_mem_parts])

theorem right (h : S (.add pos l r)) : S r :=
  hS _ r h (by simp [parts_add, r.self_mem_parts])

end Term.Downward

/-- The terms that a program holds: the parts of `e`, and those of the bodies that stand anywhere in
`env`. -/
def Written (e : Term) (env : Env) (t : Term) : Prop :=
  t ∈ e.parts ∨ ∃ b ∈ Value.bodiesEach env, t ∈ b.parts

theorem written_downward (e : Term) (env : Env) : Term.Downward (Written e env) := by
  rintro t s (ht | ⟨b, hb, ht⟩) hs
  · exact .inl (Term.mem_parts_trans ht hs)
  · exact .inr ⟨b, hb, Term.mem_parts_trans ht hs⟩

theorem written_self (e : Term) (env : Env) : Written e env e := .inl e.self_mem_parts

theorem from_written (e : Term) (env : Env) : Env.From (Written e env) env :=
  fun p hp b hb => .inr ⟨b, Value.mem_bodiesEach.mpr ⟨p, hp, hb⟩, b.self_mem_parts⟩

/-! ## Errors and notes -/

/-- The error is about a node of a term of `S`, has its position, and all bodies in its values are
terms of `S`. -/
def EvalError.PointsTo (S : Term → Prop) : EvalError → Prop
  | .unbound x pos => S (.var pos x)
  | .notClosure v pos => (∃ f a, S (.app pos f a)) ∧ v.From S
  | .notNumbers u v pos => (∃ l r, S (.add pos l r)) ∧ u.From S ∧ v.From S
  | .notExpression a => S (.atom a)
  | .notValue _ => False

/-- The same for a note. -/
def Note.PointsTo (S : Term → Prop) : Note → Prop
  | .visit _ t => S t
  | .unbound x pos => S (.var pos x)
  | .notClosure v pos => (∃ f a, S (.app pos f a)) ∧ v.From S
  | .notNumbers pos => ∃ l r, S (.add pos l r)
  | .freeVariable _ | .result _ => False

/-- The note on a failure points where its error does. -/
theorem EvalError.PointsTo.note {S : Term → Prop} {err : EvalError} (h : err.PointsTo S)
    {note : Note} (hnote : note ∈ err.note?) : note.PointsTo S := by
  cases err with
  | unbound | notClosure =>
    cases hnote
    exact h
  | notNumbers =>
    cases hnote
    exact h.1
  | notExpression | notValue => cases hnote

theorem Note.PointsTo.relabel {S : Term → Prop} {note : Note} (h : note.PointsTo S)
    (who : Evaluator) : (note.relabel who).PointsTo S := by
  cases note <;> exact h

/-! ## Results -/

variable {S : Term → Prop}

theorem Run.Keeps.visit_points (w : Watch) (who : Evaluator) (hS : Term.Downward S) {e : Term}
    (he : S e) : (w.visit who e).Keeps (EvalError.PointsTo S) fun _ => True := by
  cases ht : e.text with
  | ok s => exact Keeps.of_ends (w.visit_of_text ht who) trivial
  | error err =>
    cases hw : w.tracing with
    | false =>
      rw [w.visit_quiet hw]
      exact Keeps.pure trivial
    | true =>
      obtain ⟨a, rfl, hmem⟩ := Term.text_error ht
      rw [w.visit_of_error ht hw]
      exact Keeps.fault (hS e _ he hmem)

/-- **Results are made of program text, and errors point to it.** -/
theorem inEnv_keeps_origin (hS : Term.Downward S) (w : Watch) (n : Nat) {e : Term} {env : Env}
    (he : S e) (henv : Env.From S env) :
    (inEnv w n e env).Keeps (EvalError.PointsTo S) (Value.From S) := by
  -- `S` stays fixed: the body of a callee is no part of the application, and runs in an environment
  -- of its own, so the text of the whole program has to be carried along.
  induction n generalizing e env with
  | zero => exact Keeps.unfinished
  | succ n ih =>
    unfold inEnv
    refine (Keeps.visit_points w .environment hS he).bind fun _ _ => ?_
    cases e with
    | var pos x =>
      cases hx : env.find? x with
      | some v =>
        simp only [hx]
        exact Keeps.pure (henv.find? hx)
      | none =>
        simp only [hx]
        exact Keeps.fault he
    | abs pos x b => exact Keeps.pure (Value.from_closure.mpr ⟨hS.body he, henv⟩)
    | num pos k => exact Keeps.pure (Value.from_num k)
    | atom a => exact Keeps.fault he
    | app pos f a =>
      refine (ih (hS.fn he) henv).bind fun callee hcallee => ?_
      cases callee with
      | closure inner x b =>
        obtain ⟨hb, hinner⟩ := Value.from_closure.mp hcallee
        exact (ih (hS.arg he) henv).bind fun v hv => ih hb (hinner.extend x hv)
      | num | atom => exact Keeps.fault ⟨⟨f, a, he⟩, hcallee⟩
    | add pos l r =>
      refine (ih (hS.left he) henv).bind fun u hu => (ih (hS.right he) henv).bind fun v hv => ?_
      cases u with
      | num i =>
        cases v with
        | num j => exact Keeps.pure (Value.from_num _)
        | closure | atom => exact Keeps.fault ⟨⟨l, r, he⟩, hu, hv⟩
      | closure | atom => exact Keeps.fault ⟨⟨l, r, he⟩, hu, hv⟩

/-! ## Evaluations on the way -/

/-- A term to be evaluated in an environment. -/
structure Job where
  term : Term
  env : Env

namespace Job

/-- The evaluation ends with the result `v`. -/
def Yields (j : Job) (v : Value) : Prop := Returns (inEnv Watch.off · j.term j.env) v

/-- Watching does not change a result. -/
theorem yields_of_done {w : Watch} {n : Nat} {e : Term} {env : Env} {v : Value}
    {log log' : List Note} (h : inEnv w n e env log = (.done v, log')) : Yields ⟨e, env⟩ v := by
  -- Nothing is known about atoms here.
  have he : False → e.WellFormed := False.elim
  have henv : False → Env.WellFormed env := False.elim
  obtain ⟨err, notes, -, hm⟩ | ⟨out, notes, notes', hm, hm', -⟩ :=
    inEnv_undisturbed w.off_discreet n he henv
  · cases (hm log).symm.trans h
  · obtain ⟨rfl, -⟩ := Prod.mk.inj ((hm log).symm.trans h)
    exact ⟨notes', by simp, n, hm'.eq⟩

/-- The first evaluation makes the second: of a part in the same environment or, for an application,
of the body of the callee in the environment of the callee, extended by the argument. -/
inductive Calls : Job → Job → Prop
  | fn {pos : Pos} {f a : Term} {env : Env} : Calls ⟨.app pos f a, env⟩ ⟨f, env⟩
  | arg {pos : Pos} {f a b : Term} {env inner : Env} {x : String}
      (hf : Yields ⟨f, env⟩ (.closure inner x b)) : Calls ⟨.app pos f a, env⟩ ⟨a, env⟩
  | body {pos : Pos} {f a b : Term} {env inner : Env} {x : String} {v : Value}
      (hf : Yields ⟨f, env⟩ (.closure inner x b)) (ha : Yields ⟨a, env⟩ v) :
      Calls ⟨.app pos f a, env⟩ ⟨b, Bindings.extend inner x v⟩
  | left {pos : Pos} {l r : Term} {env : Env} : Calls ⟨.add pos l r, env⟩ ⟨l, env⟩
  | right {pos : Pos} {l r : Term} {env : Env} {u : Value} (hl : Yields ⟨l, env⟩ u) :
      Calls ⟨.add pos l r, env⟩ ⟨r, env⟩

/-- The second evaluation is made in the course of the first. -/
def Reaches : Job → Job → Prop := Relation.ReflTransGen Calls

/-- The term and all bodies in the environment are terms of `S`. -/
def Within (S : Term → Prop) (j : Job) : Prop := S j.term ∧ Env.From S j.env

variable {j k : Job}

theorem Yields.value_from {v : Value} (hS : Term.Downward S) (h : j.Yields v) (hj : j.Within S) :
    v.From S := by
  obtain ⟨log, -, n, hn⟩ := h
  exact (inEnv_keeps_origin hS Watch.off n hj.1 hj.2 [] log).2 v hn

theorem Calls.within (hS : Term.Downward S) (h : Calls j k) (hj : j.Within S) : k.Within S := by
  obtain ⟨he, henv⟩ := hj
  cases h with
  | fn => exact ⟨hS.fn he, henv⟩
  | arg _ => exact ⟨hS.arg he, henv⟩
  | body hf ha =>
    obtain ⟨hb, hinner⟩ := Value.from_closure.mp (hf.value_from hS ⟨hS.fn he, henv⟩)
    exact ⟨hb, hinner.extend _ (ha.value_from hS ⟨hS.arg he, henv⟩)⟩
  | left => exact ⟨hS.left he, henv⟩
  | right _ => exact ⟨hS.right he, henv⟩

theorem Reaches.within (hS : Term.Downward S) (h : j.Reaches k) (hj : j.Within S) :
    k.Within S := by
  induction h with
  | refl => exact hj
  | tail _ hc ih => exact hc.within hS ih

end Job

/-! ## The log -/

/-- A note on a term that is evaluated in the course of `j`. -/
def Note.InCourse (j : Job) (note : Note) : Prop :=
  ∃ t env, note = .visit .environment t ∧ j.Reaches ⟨t, env⟩

/-- **A run, finished or not, notes nothing but terms evaluated on the way.** -/
theorem inEnv_adds (w : Watch) (n : Nat) {j : Job} {e : Term} {env : Env}
    (h : j.Reaches ⟨e, env⟩) : (inEnv w n e env).Adds (Note.InCourse j) := by
  induction n generalizing e env with
  | zero => exact Adds.unfinished
  | succ n ih =>
    unfold inEnv
    refine (Adds.visit w .environment ⟨e, env, rfl, h⟩).bind fun _ _ _ => ?_
    cases e with
    | var pos x =>
      cases hx : env.find? x with
      | some v =>
        simp only [hx]
        exact Adds.pure v
      | none =>
        simp only [hx]
        exact Adds.fault _
    | abs | num => exact Adds.pure _
    | atom a => exact Adds.fault _
    | app pos f a =>
      refine (ih (h.tail .fn)).bind fun callee _ hf => ?_
      cases callee with
      | closure inner x b =>
        have hf := Job.yields_of_done (hf [])
        refine (ih (h.tail (.arg hf))).bind fun v _ ha => ?_
        exact ih (h.tail (.body hf (Job.yields_of_done (ha []))))
      | num | atom => exact Adds.fault _
    | add pos l r =>
      refine (ih (h.tail .left)).bind fun u _ hl => ?_
      refine (ih (h.tail (.right (Job.yields_of_done (hl []))))).bind fun v _ _ => ?_
      cases u with
      | num i =>
        cases v with
        | num k => exact Adds.pure _
        | closure | atom => exact Adds.fault _
      | closure | atom => exact Adds.fault _

theorem mem_visited {t : Term} {notes : List Note} (h : t ∈ visited notes) :
    ∃ who, .visit who t ∈ notes := by
  obtain ⟨note, hnote, ht⟩ := List.mem_filterMap.mp h
  cases note with
  | visit who t' =>
    cases ht
    exact ⟨who, hnote⟩
  | _ => cases ht

/-- A traced evaluation of the fatal evaluator is one made on the way. -/
theorem reaches_of_visited {w : Watch} {n : Nat} {e t : Term} {env : Env}
    (h : t ∈ visited (inEnv w n e env []).2) : ∃ env', Job.Reaches ⟨e, env⟩ ⟨t, env'⟩ := by
  obtain ⟨who, hnote⟩ := mem_visited h
  obtain ⟨out, notes, hends, hnotes⟩ := inEnv_adds w n (j := ⟨e, env⟩) .refl
  rw [hends.eq] at hnote
  obtain ⟨t', env', ⟨⟩, hr⟩ := hnotes _ hnote
  exact ⟨env', hr⟩

section Program

variable {e : Term} {env : Env} {w : Watch} {n : Nat}

theorem reaches_written {t : Term} {env' : Env} (h : Job.Reaches ⟨e, env⟩ ⟨t, env'⟩) :
    Written e env t ∧ Env.From (Written e env) env' :=
  h.within (written_downward e env) ⟨written_self e env, from_written e env⟩

theorem inEnv_keeps_written (w : Watch) (n : Nat) (e : Term) (env : Env) :
    (inEnv w n e env).Keeps (EvalError.PointsTo (Written e env)) (Value.From (Written e env)) :=
  inEnv_keeps_origin (written_downward e env) w n (written_self e env) (from_written e env)

theorem inEnv_note_points {note : Note} (h : note ∈ (inEnv w n e env []).2) :
    note.PointsTo (Written e env) := by
  obtain ⟨out, notes, hends, hnotes⟩ := inEnv_adds w n (j := ⟨e, env⟩) .refl
  rw [hends.eq] at h
  obtain ⟨t, env', rfl, hr⟩ := hnotes note h
  exact (reaches_written hr).1

/-- The optional evaluator notes the terms that the fatal one notes, and then what fails there. -/
theorem inEnv?_note_points {note : Note} (h : note ∈ (inEnv? w n e env []).2) :
    note.PointsTo (Written e env) := by
  obtain ⟨out, terms, hm, hm'⟩ := inEnv_parallel w n e env
  rw [hm'.eq, List.mem_append] at h
  rcases h with h | h
  · rw [← w.map_relabel_traced .environment .optional] at h
    obtain ⟨note', hnote', rfl⟩ := List.mem_map.mp h
    have hlog : note' ∈ (inEnv w n e env []).2 := by rwa [hm.eq]
    exact (inEnv_note_points hlog).relabel .optional
  · have hreport : note ∈ out.report := by
      cases hv : w.verbose <;> simp_all [Watch.kept]
    cases out with
    | done | unfinished => cases hreport
    | fault err =>
      have herr := (inEnv_keeps_written w n e env [] _).1 err hm.eq
      exact herr.note (Option.mem_toList.mp hreport)

end Program

/-- **Evaluation makes no terms, and what it reports points into the program.** Whatever is
evaluated in the course of evaluating `e` in `env` is a part of `e` or of a body that stands
somewhere in `env`, and so is every body in a result. The log of each evaluator, finished or not,
tells of such evaluations only, and each failure that is raised or noted has the position of such a
node: of a variable with the name reported, of an application, or of an addition. -/
theorem inEnv_points_into_program (e : Term) (env : Env) :
    (∀ t env', Job.Reaches ⟨e, env⟩ ⟨t, env'⟩ →
      Written e env t ∧ Env.From (Written e env) env') ∧
    ∀ w : Watch,
      (∀ n, ∀ t ∈ visited ((inEnv w n e env []).2 ++ (inEnv? w n e env []).2),
        ∃ env', Job.Reaches ⟨e, env⟩ ⟨t, env'⟩) ∧
      (∀ n, ∀ note ∈ (inEnv w n e env []).2 ++ (inEnv? w n e env []).2,
        note.PointsTo (Written e env)) ∧
      (∀ v, Returns (inEnv w · e env) v ∨ Returns (inEnv? w · e env) (some v) →
        v.From (Written e env)) ∧
      (∀ err, Raises (inEnv w · e env) err ∨ Raises (inEnv? w · e env) err →
        err.PointsTo (Written e env)) := by
  refine ⟨fun t env' => reaches_written, fun w => ⟨?_, ?_, ?_, ?_⟩⟩
  · intro n t ht
    rw [visited_append, visited_inEnv?, List.mem_append, or_self] at ht
    exact reaches_of_visited ht
  · intro n note hnote
    exact (List.mem_append.mp hnote).elim inEnv_note_points inEnv?_note_points
  · intro v hv
    rw [← inEnv_returns_iff, or_self] at hv
    obtain ⟨log, -, n, hn⟩ := hv
    exact (inEnv_keeps_written w n e env [] log).2 v hn
  · intro err herr
    rw [← inEnv_raises_iff] at herr
    obtain ⟨log, -, n, hn⟩ := herr.elim id And.right
    exact (inEnv_keeps_written w n e env [] log).1 err hn

/-- The program calls a closure of its environment, and this calls one of its own, whose body is an
unbound variable. The error points to that variable, which is part of neither the term nor the body
called first. -/
theorem inEnv_points_into_program_inner :
    let missing : Term := .var ⟨5, 1⟩ "missing"
    let body : Term := .app ⟨4, 0⟩ (.var ⟨4, 1⟩ "g") (.var ⟨4, 2⟩ "x")
    let env : Env := [("k", .closure [("g", .closure [] "y" missing)] "x" body)]
    let e : Term := .app ⟨0, 0⟩ (.var ⟨0, 1⟩ "k") (.num ⟨0, 2⟩ 1)
    Raises (inEnv ⟨true, true⟩ · e env) (.unbound "missing" ⟨5, 1⟩) ∧
      Returns (inEnv? ⟨true, true⟩ · e env) none ∧ Written e env missing ∧
      missing ∉ e.parts ∧ missing ∉ body.parts := by
  intro missing body env e
  have hraises : Raises (inEnv ⟨true, true⟩ · e env) (.unbound "missing" ⟨5, 1⟩) :=
    ⟨_, by simp, 4, rfl⟩
  have hnone : Returns (inEnv? ⟨true, true⟩ · e env) none := ⟨_, by simp, 4, rfl⟩
  obtain ⟨-, hpoints⟩ := inEnv_points_into_program e env
  obtain ⟨-, -, -, herr⟩ := hpoints ⟨true, true⟩
  exact ⟨hraises, hnone, herr _ (.inl hraises), by decide, by decide⟩

end EffectCalculus
