import EffectCalculus.Proofs.Eval.Failure
import EffectCalculus.Proofs.Term.Position

/-!
# Two runs at once

To compare two evaluations, relate what they have in hand: errors by one relation, results by
another. Related runs end in the same way, and they stay related however they go on.

* `Outcome.Relates`, `Eval.Relates`: related outcomes and runs, one lemma for each way to go on;
* `Eval.Together`: with large enough bounds, both end or neither does, with related outcomes;
* `EvalError.Moved`: the same failure elsewhere, about related values;
* `Transport`: what a relation between environments and one between values have to satisfy;
* `Transport.inEnv_relates`: **fundamental lemma**, evaluation then takes related environments to
  related outcomes.
-/

namespace EffectCalculus

/-! ## Outcomes -/

/-- Outcomes of one kind: errors that `E` relates, results that `V` relates, or none. -/
inductive Outcome.Relates {ε α β : Type} (E : ε → ε → Prop) (V : α → β → Prop) :
    Outcome ε α → Outcome ε β → Prop
  | done {a : α} {b : β} (h : V a b) : Relates E V (.done a) (.done b)
  | fault {err err' : ε} (h : E err err') : Relates E V (.fault err) (.fault err')
  | unfinished : Relates E V .unfinished .unfinished

namespace Outcome.Relates

variable {ε α β : Type} {E : ε → ε → Prop} {V : α → β → Prop} {out : Outcome ε α}
  {out' : Outcome ε β}

theorem ne_unfinished_iff (h : out.Relates E V out') :
    out ≠ .unfinished ↔ out' ≠ .unfinished := by
  cases h <;> simp

theorem mono {E' : ε → ε → Prop} {V' : α → β → Prop} (h : out.Relates E V out')
    (hE : ∀ err err', E err err' → E' err err') (hV : ∀ a b, V a b → V' a b) :
    out.Relates E' V' out' := by
  cases h with
  | done hab => exact .done (hV _ _ hab)
  | fault herr => exact .fault (hE _ _ herr)
  | unfinished => exact .unfinished

end Outcome.Relates

theorem optionRel_imp {α β : Type} {R R' : α → β → Prop} {a? : Option α} {b? : Option β}
    (h : Option.Rel R a? b?) (hR : ∀ a b, a? = some a → b? = some b → R a b → R' a b) :
    Option.Rel R' a? b? := by
  cases h with
  | none => exact .none
  | some hab => exact .some (hR _ _ rfl rfl hab)

/-- Failures of evaluation proper on both sides become missing results on both sides. -/
theorem Outcome.Relates.optional {α β : Type} {E : EvalError → EvalError → Prop} {V : α → β → Prop}
    {out : Outcome EvalError α} {out' : Outcome EvalError β} (h : out.Relates E V out')
    (hE : ∀ err err', E err err' → err.pos?.isSome = true ∧ err'.pos?.isSome = true) :
    out.optional.Relates (fun _ _ => False) (Option.Rel V) out'.optional := by
  cases h with
  | done hab => exact .done (.some hab)
  | fault herr =>
    obtain ⟨hp, hp'⟩ := hE _ _ herr
    rw [optional_fault hp, optional_fault hp']
    exact .done .none
  | unfinished => exact .unfinished

/-! ## Runs -/

namespace Eval

/-- Whatever stands in the logs, `m` and `m'` end with related outcomes. -/
def Relates {α β : Type} (E : EvalError → EvalError → Prop) (V : α → β → Prop) (m : Eval α)
    (m' : Eval β) : Prop :=
  ∃ out notes out' notes', m.Ends out notes ∧ m'.Ends out' notes' ∧ out.Relates E V out'

namespace Relates

variable {α β γ δ : Type} {E : EvalError → EvalError → Prop} {V : α → β → Prop}
  {W : γ → δ → Prop} {m : Eval α} {m' : Eval β}

theorem pure {a : α} {b : β} (h : V a b) : Relates E V (Pure.pure a) (Pure.pure b) :=
  ⟨_, _, _, _, ends_pure a, ends_pure b, .done h⟩

theorem fault {err err' : EvalError} (h : E err err') :
    Relates E V (Run.fault err) (Run.fault err') :=
  ⟨_, _, _, _, ends_fault err, ends_fault err', .fault h⟩

theorem unfinished : Relates E V Run.unfinished Run.unfinished :=
  ⟨_, _, _, _, ends_unfinished, ends_unfinished, .unfinished⟩

theorem bind {k : α → Eval γ} {k' : β → Eval δ} (hm : Relates E V m m')
    (hk : ∀ a b, V a b → Relates E W (k a) (k' b)) : Relates E W (m >>= k) (m' >>= k') := by
  obtain ⟨out, notes, out', notes', h, h', hout⟩ := hm
  cases hout with
  | done hab =>
    obtain ⟨out₂, notes₂, out₂', notes₂', h₂, h₂', hout₂⟩ := hk _ _ hab
    exact ⟨_, _, _, _, h.bind_done h₂, h'.bind_done h₂', hout₂⟩
  | fault herr => exact ⟨_, _, _, _, h.bind_fault k, h'.bind_fault k', .fault herr⟩
  | unfinished => exact ⟨_, _, _, _, h.bind_unfinished k, h'.bind_unfinished k', .unfinished⟩

theorem andThen {n : Eval (Option α)} {n' : Eval (Option β)} {k : α → Eval (Option γ)}
    {k' : β → Eval (Option δ)} (hn : Relates E (Option.Rel V) n n')
    (hk : ∀ a b, V a b → Relates E (Option.Rel W) (k a) (k' b)) :
    Relates E (Option.Rel W) (n.andThen k) (n'.andThen k') := by
  refine hn.bind fun a? b? hab => ?_
  cases hab with
  | none => exact pure .none
  | some hab => exact hk _ _ hab

/-- Every evaluator can begin with terms without atoms. -/
theorem visit (w : Watch) (who : Evaluator) {e e' : Term} (he : e.WellFormed) (he' : e'.WellFormed)
    (h : Relates E V m m') :
    Relates E V (w.visit who e >>= fun _ => m) (w.visit who e' >>= fun _ => m') := by
  obtain ⟨out, notes, out', notes', hm, hm', hout⟩ := h
  exact ⟨_, _, _, _, (w.visit_of_wellFormed he who).bind_done hm,
    (w.visit_of_wellFormed he' who).bind_done hm', hout⟩

end Relates

/-! ## Large enough bounds -/

/-- With large enough bounds, `f` and `f'` both end or neither does, with related outcomes. -/
structure Together {α β : Type} (E : EvalError → EvalError → Prop) (V : α → β → Prop)
    (f : Nat → Eval α) (f' : Nat → Eval β) : Prop where
  halts : Halts f ↔ Halts f'
  outcomes {out : Outcome EvalError α} {out' : Outcome EvalError β} {log log' : List Note} :
    Settles f out log → Settles f' out' log' → out.Relates E V out'

namespace Together

variable {α β γ : Type} {E : EvalError → EvalError → Prop} {V : α → β → Prop} {f : Nat → Eval α}
  {f' : Nat → Eval β}

theorem of_relates (hf' : ∀ {m n}, m ≤ n → Run.Below (f' m) (f' n))
    (h : ∀ n, Relates E V (f n) (f' n)) : Together E V f f' where
  halts := by
    constructor
    · rintro ⟨out, log, hout, n, hn⟩
      obtain ⟨out₁, notes, out', notes', hends, hends', hrel⟩ := h n
      obtain ⟨rfl, rfl⟩ := Prod.mk.inj (hends.eq.symm.trans hn)
      exact ⟨out', notes', hrel.ne_unfinished_iff.mp hout, n, hends'.eq⟩
    · rintro ⟨out', log', hout', n, hn⟩
      obtain ⟨out, notes, out₁, notes', hends, hends', hrel⟩ := h n
      obtain ⟨rfl, rfl⟩ := Prod.mk.inj (hends'.eq.symm.trans hn)
      exact ⟨out, notes, hrel.ne_unfinished_iff.mpr hout', n, hends.eq⟩
  outcomes := by
    rintro out out' log log' ⟨hout, n, hn⟩ hs'
    obtain ⟨out₁, notes, out₂, notes', hends, hends', hrel⟩ := h n
    obtain ⟨rfl, rfl⟩ := Prod.mk.inj (hends.eq.symm.trans hn)
    have hs₂ : Settles f' out₂ notes' := ⟨hrel.ne_unfinished_iff.mp hout, n, hends'.eq⟩
    obtain ⟨rfl, -⟩ := Run.settles_unique (fun _ _ => hf') hs' hs₂
    exact hrel

/-- Where the one run ends, the other ends with a related outcome. -/
theorem settles (h : Together E V f f') {out : Outcome EvalError α} {log : List Note}
    (hs : Settles f out log) : ∃ out' log', Settles f' out' log' ∧ out.Relates E V out' := by
  obtain ⟨out', log', hs'⟩ := h.halts.mp ⟨out, log, hs⟩
  exact ⟨out', log', hs', h.outcomes hs hs'⟩

theorem mono {E' : EvalError → EvalError → Prop} {V' : α → β → Prop} (h : Together E V f f')
    (hE : ∀ err err', E err err' → E' err err') (hV : ∀ a b, V a b → V' a b) :
    Together E' V' f f' :=
  ⟨h.halts, fun hs hs' => (h.outcomes hs hs').mono hE hV⟩

/-- Only the outcomes count: a run may be replaced by one that settles alike. -/
theorem congr_right {g : Nat → Eval β} (h : Together E V f f')
    (hg : ∀ out, (∃ log, Settles f' out log) ↔ ∃ log, Settles g out log) : Together E V f g where
  halts := h.halts.trans (exists_congr hg)
  outcomes := by
    intro out out' log log' hs hs'
    obtain ⟨log₁, hs₁⟩ := (hg out').mpr ⟨log', hs'⟩
    exact h.outcomes hs hs₁

theorem congr_left {g : Nat → Eval α} (h : Together E V f f')
    (hg : ∀ out, (∃ log, Settles f out log) ↔ ∃ log, Settles g out log) : Together E V g f' where
  halts := (exists_congr hg).symm.trans h.halts
  outcomes := by
    intro out out' log log' hs hs'
    obtain ⟨log₁, hs₁⟩ := (hg out).mpr ⟨log, hs⟩
    exact h.outcomes hs₁ hs'

/-- Two runs that go together with a third go together. -/
theorem span {E' : EvalError → EvalError → Prop} {V' : γ → β → Prop} {g : Nat → Eval γ}
    (h : Together E V f f') (h' : Together E' V' g f') :
    Together (fun err err' => ∃ err₀, E err err₀ ∧ E' err' err₀)
      (fun a c => ∃ b, V a b ∧ V' c b) f g where
  halts := h.halts.trans h'.halts.symm
  outcomes := by
    intro out out' log log' hs hs'
    obtain ⟨out₀, log₀, hs₀, hrel⟩ := h.settles hs
    cases hrel with
    | done ha =>
      cases h'.outcomes hs' hs₀ with
      | done hc => exact .done ⟨_, ha, hc⟩
    | fault herr =>
      cases h'.outcomes hs' hs₀ with
      | fault herr' => exact .fault ⟨_, herr, herr'⟩
    | unfinished => exact absurd rfl hs.1

end Together

end Eval

open Eval

/-! ## Related environments -/

/-- The same failure at the place where `f` puts it, about values that `V` relates. -/
inductive EvalError.Moved (f : Pos → Pos) (V : Value → Value → Prop) : EvalError → EvalError → Prop
  | unbound (x : String) (pos : Pos) : Moved f V (.unbound x pos) (.unbound x (f pos))
  | notClosure {v v' : Value} (pos : Pos) (h : V v v') :
      Moved f V (.notClosure v pos) (.notClosure v' (f pos))
  | notNumbers {u u' v v' : Value} (pos : Pos) (hu : V u u') (hv : V v v') :
      Moved f V (.notNumbers u v pos) (.notNumbers u' v' (f pos))

namespace EvalError.Moved

variable {f : Pos → Pos} {V : Value → Value → Prop} {err err' : EvalError}

theorem pos (h : Moved f V err err') : err.pos?.isSome = true ∧ err'.pos?.isSome = true := by
  cases h <;> exact ⟨rfl, rfl⟩

theorem mono {V' : Value → Value → Prop} (h : Moved f V err err') (hV : ∀ v v', V v v' → V' v v') :
    Moved f V' err err' := by
  cases h with
  | unbound x pos => exact .unbound x pos
  | notClosure pos hv => exact .notClosure pos (hV _ _ hv)
  | notNumbers pos hu hv => exact .notNumbers pos (hV _ _ hu) (hV _ _ hv)

end EvalError.Moved

/-- A number and itself, or closures whose bodies are the same up to `f` and can be entered: where
`V` relates the arguments, `S` relates the extended environments on the body. -/
inductive Enterable (f : Pos → Pos) (S : Term → Env → Env → Prop) (V : Value → Value → Prop) :
    Value → Value → Prop
  | num (n : Int) : Enterable f S V (.num n) (.num n)
  | closure {env env' : Env} {x : String} {b : Term}
      (enter : ∀ u u', V u u' → S b (env.extend x u) (env'.extend x u')) :
      Enterable f S V (.closure env x b) (.closure env' x (b.mapPos f))

/-- `S e env env'` relates environments as far as `e` can tell, `V` values, and `f` moves the
positions of terms. Each field is what one step of evaluation needs. -/
structure Transport (f : Pos → Pos) (S : Term → Env → Env → Prop) (V : Value → Value → Prop) :
    Prop where
  formed {e : Term} {env env' : Env} : S e env env' → e.WellFormed
  find {pos : Pos} {x : String} {env env' : Env} :
    S (.var pos x) env env' → Option.Rel V (env.find? x) (env'.find? x)
  close {pos : Pos} {x : String} {b : Term} {env env' : Env} :
    S (.abs pos x b) env env' → V (.closure env x b) (.closure env' x (b.mapPos f))
  app {pos : Pos} {e a : Term} {env env' : Env} :
    S (.app pos e a) env env' → S e env env' ∧ S a env env'
  add {pos : Pos} {l r : Term} {env env' : Env} :
    S (.add pos l r) env env' → S l env env' ∧ S r env env'
  num (n : Int) : V (.num n) (.num n)
  enterable {v v' : Value} : V v v' → Enterable f S V v v'

namespace Transport

variable {f : Pos → Pos} {S : Term → Env → Env → Prop} {V : Value → Value → Prop}

/-- **Fundamental lemma.** -/
theorem inEnv_relates (T : Transport f S V) (w : Watch) (n : Nat) {e : Term} {env env' : Env}
    (h : S e env env') :
    Eval.Relates (EvalError.Moved f V) V (inEnv w n e env) (inEnv w n (e.mapPos f) env') := by
  induction n generalizing e env env' with
  | zero => exact Relates.unfinished
  | succ n ih =>
    have he := T.formed h
    unfold inEnv
    refine Relates.visit w .environment he ((Term.wellFormed_mapPos f e).mpr he) ?_
    cases e with
    | var pos x =>
      have hx := T.find h
      simp only [Term.mapPos]
      generalize env.find? x = v? at hx ⊢
      generalize env'.find? x = v?' at hx ⊢
      cases hx with
      | none => exact Relates.fault (.unbound x pos)
      | some hv => exact Relates.pure hv
    | abs pos x b => exact Relates.pure (T.close h)
    | num pos k => exact Relates.pure (T.num k)
    | atom => exact he.elim
    | app pos e a =>
      obtain ⟨hfn, harg⟩ := T.app h
      refine (ih hfn).bind fun callee callee' hcallee => ?_
      cases T.enterable hcallee with
      | num k => exact Relates.fault (.notClosure pos hcallee)
      | closure enter => exact (ih harg).bind fun u u' hu => ih (enter u u' hu)
    | add pos l r =>
      obtain ⟨hl, hr⟩ := T.add h
      refine (ih hl).bind fun u u' hu => (ih hr).bind fun v v' hv => ?_
      cases T.enterable hu with
      | closure => exact Relates.fault (.notNumbers pos hu hv)
      | num i =>
        cases T.enterable hv with
        | closure => exact Relates.fault (.notNumbers pos hu hv)
        | num j => exact Relates.pure (T.num (i + j))

theorem inEnv_together (T : Transport f S V) (w : Watch) {e : Term} {env env' : Env}
    (h : S e env env') :
    Together (EvalError.Moved f V) V (inEnv w · e env) (inEnv w · (e.mapPos f) env') :=
  .of_relates (inEnv_below w _ env') fun n => T.inEnv_relates w n h

end Transport

/-- Where the fatal evaluator ends with related outcomes, so does the optional one, with results on
both sides or on neither. -/
theorem inEnv?_together {E : EvalError → EvalError → Prop} {V : Value → Value → Prop} {w : Watch}
    {e e' : Term} {env env' : Env} (h : Together E V (inEnv w · e env) (inEnv w · e' env'))
    (hE : ∀ err err', E err err' → err.pos?.isSome = true ∧ err'.pos?.isSome = true) :
    Together (fun _ _ => False) (Option.Rel V) (inEnv? w · e env) (inEnv? w · e' env') where
  halts := by rw [← inEnv_halts_iff, ← inEnv_halts_iff, h.halts]
  outcomes := by
    intro out out' log log' hs hs'
    obtain ⟨o, l, ho, rfl, -⟩ := (inEnv?_settles_iff w e env out log).mp hs
    obtain ⟨o', l', ho', rfl, -⟩ := (inEnv?_settles_iff w e' env' out' log').mp hs'
    exact (h.outcomes ho ho').optional hE

end EffectCalculus
