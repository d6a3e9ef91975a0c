import EffectCalculus.Proofs.Eval.Call

/-!
# Chains and blocks

Driving the block of a term evaluates it just as the chain of optional results does. The only
difference is in the log: when a run has no result because it evaluated a variable, the chain has
noted that variable.

* `Block.drive_await_bind`: driving a block that awaits is going on with the awaited result;
* `Explains`: whether a note on a variable is due at the end;
* `Echo`, `bySubstitution_echo`: **the evaluators go in step**;
* `bySubstitution_echoes_byBlock`: how their outcomes and logs correspond.
-/

namespace EffectCalculus

open Eval

/-! ## Driving blocks -/

namespace Block

variable {α β : Type}

theorem drive_await_bind (m : Eval (Option Term)) (k : Term → Block α) :
    (Block.await m >>= k).drive = m.andThen fun v => (k v).drive := by
  change (Block.yield m k).drive = _
  rw [Block.drive, Eval.andThen]
  refine bind_congr fun v? => ?_
  cases v? <;> rfl

theorem drive_await (m : Eval (Option Term)) : (Block.await m).drive = m := by
  have h : (Block.await m).drive = m >>= pure := by
    rw [Block.await, Block.drive]
    refine bind_congr fun v? => ?_
    cases v? <;> rfl
  rw [h, bind_pure]

theorem drive_ofExcept_bind (x : Except EvalError α) (k : α → Block β) :
    (Block.ofExcept x >>= k).drive = Run.ofExcept x >>= fun a => (k a).drive := by
  cases x <;> rfl

end Block

/-! ## In step -/

/-- At the outcome `out`, the notes `extra` name a variable of `V` if a run that met one of them has
ended without a result, and are none otherwise. -/
def Explains (V : String → Prop) (out : Outcome EvalError (Option Term)) (extra : List Note) :
    Prop :=
  (out = .done none ∧ ∃ x, V x ∧ extra = [.freeVariable x]) ∨
    (¬ (out = .done none ∧ ∃ x, V x) ∧ extra = [])

theorem Explains.nil {V : String → Prop} {out : Outcome EvalError (Option Term)}
    (h : out ≠ .done none) : Explains V out [] :=
  .inr ⟨fun hV => h hV.1, rfl⟩

theorem Explains.eq_nil {V : String → Prop} {out : Outcome EvalError (Option Term)}
    {extra : List Note} (h : Explains V out extra) (hout : out ≠ .done none) : extra = [] := by
  rcases h with ⟨hnone, -⟩ | ⟨-, hextra⟩
  · exact absurd hnone hout
  · exact hextra

theorem Explains.congr {V V' : String → Prop} {out : Outcome EvalError (Option Term)}
    {extra : List Note} (h : Explains V out extra) (hV : out = .done none → ∀ x, V x ↔ V' x) :
    Explains V' out extra := by
  by_cases hout : out = .done none
  · have hVV : V = V' := funext fun x => propext (hV hout x)
    exact hVV ▸ h
  · cases h.eq_nil hout
    exact Explains.nil hout

/-- `m` does what `m'` does and notes at the end what `Explains` asks for. -/
def Echo (w : Watch) (V : String → Prop) (m m' : Eval (Option Term)) : Prop :=
  ∃ out terms extra, m.Ends out (w.traced .substitution terms ++ w.kept extra) ∧
    m'.Ends out (w.traced .block terms) ∧ Explains V out extra

namespace Echo

variable {w : Watch} {V V' : String → Prop} {m m' : Eval (Option Term)}

/-- Equal runs that add nothing to the log. -/
theorem of_ends {out : Outcome EvalError (Option Term)} (h : m.Ends out []) (h' : m'.Ends out [])
    (hout : out = .done none → ∀ x, ¬ V x) : Echo w V m m' := by
  refine ⟨out, [], [], ?_, ?_, .inr ⟨?_, rfl⟩⟩
  · simpa using h
  · simpa using h'
  · rintro ⟨hnone, x, hx⟩
    exact hout hnone x hx

theorem freeVariable {x : String} (hx : V x) :
    Echo w V (w.note (.freeVariable x) >>= fun _ => pure none) (pure none) := by
  refine ⟨.done none, [], [.freeVariable x], ?_, ?_, .inl ⟨rfl, x, hx, rfl⟩⟩
  · simpa using ends_note_none w (.freeVariable x)
  · simpa using ends_pure (none : Option Term)

theorem congr (h : Echo w V m m') (hV : ∀ x, V x ↔ V' x) : Echo w V' m m' := by
  obtain ⟨out, terms, extra, hm, hm', he⟩ := h
  exact ⟨out, terms, extra, hm, hm', he.congr fun _ => hV⟩

/-- Only a run without a result explains something, so what explains the first part explains the
whole if they agree in that case. -/
theorem andThen {k k' : Term → Eval (Option Term)} (hm : Echo w V m m')
    (hV : ∀ log log', m log = (.done none, log') → ∀ x, V x ↔ V' x)
    (hk : ∀ v log log', m log = (.done (some v), log') → Echo w V' (k v) (k' v)) :
    Echo w V' (m.andThen k) (m'.andThen k') := by
  obtain ⟨out, terms, extra, h, h', he⟩ := hm
  cases out with
  | unfinished =>
    cases he.eq_nil (by simp)
    exact ⟨.unfinished, terms, [], h.andThen_unfinished k, h'.andThen_unfinished k',
      Explains.nil (by simp)⟩
  | fault err =>
    cases he.eq_nil (by simp)
    exact ⟨.fault err, terms, [], h.andThen_fault k, h'.andThen_fault k', Explains.nil (by simp)⟩
  | done v? =>
    cases v? with
    | none =>
      exact ⟨.done none, terms, extra, h.andThen_none k, h'.andThen_none k',
        he.congr fun _ => hV [] _ h.eq⟩
    | some v =>
      cases he.eq_nil (by simp)
      obtain ⟨out₂, terms₂, extra₂, h₂, h₂', he₂⟩ := hk v [] _ h.eq
      simp only [Watch.kept_nil, List.append_nil] at h
      refine ⟨out₂, terms ++ terms₂, extra₂, ?_, ?_, he₂⟩
      · rw [Watch.traced_append, List.append_assoc]
        exact h.andThen_some h₂
      · rw [Watch.traced_append]
        exact h'.andThen_some h₂'

theorem visit (e : Term) (h : Echo w V m m') :
    Echo w V (w.visit .substitution e >>= fun _ => m) (w.visit .block e >>= fun _ => m') := by
  obtain ⟨out, terms, extra, hm, hm', he⟩ := h
  rcases w.visit_cases e with hv | ⟨a, hv⟩
  · refine ⟨out, [e] ++ terms, extra, ?_, ?_, he⟩
    · rw [Watch.traced_append, List.append_assoc]
      exact (hv .substitution).bind_done hm
    · rw [Watch.traced_append]
      exact (hv .block).bind_done hm'
  · exact of_ends ((hv .substitution).bind_fault _) ((hv .block).bind_fault _) (by simp)

end Echo

open Term in
/-- **The evaluators go in step.** -/
theorem bySubstitution_echo (w : Watch) (n : Nat) (e : Term) :
    Echo w e.Meets (bySubstitution w n e) (byBlock w n e) := by
  induction n generalizing e with
  | zero => exact Echo.of_ends ends_unfinished ends_unfinished (by simp)
  | succ n ih =>
    unfold bySubstitution byBlock
    apply Echo.visit
    cases e with
    | var pos x =>
      rw [Term.block, Block.drive_await]
      exact Echo.freeVariable (meets_var pos x)
    | abs pos x b => exact Echo.of_ends (ends_pure _) (ends_pure _) (by simp)
    | num pos k => exact Echo.of_ends (ends_pure _) (ends_pure _) (by simp)
    | atom a => exact Echo.of_ends (ends_fault _) (ends_fault _) (by simp)
    | app pos f a =>
      rw [Term.block, Block.drive_await_bind]
      refine (ih f).andThen (fun _ _ hf x => ?_) fun callee _ _ hf => ?_
      · exact (meets_app_of_fn (evaluates_of_done hf)).symm
      replace hf := evaluates_of_done hf
      -- The callee has a result now, so only the argument and the body can meet a variable.
      cases callee with
      | abs q y b =>
        simp only [Block.drive_await_bind, Block.drive_ofExcept_bind, Block.drive_await]
        refine (ih a).andThen (fun _ _ ha x => ?_) fun u _ _ ha => ?_
        · exact (meets_app_of_arg hf (evaluates_of_done ha)).symm
        replace ha := evaluates_of_done ha
        cases hs : Term.subst y u b with
        | error err => exact Echo.of_ends (ends_fault err) (ends_fault err) (by simp)
        | ok e =>
          simp only [Run.ofExcept_ok, pure_bind]
          exact (ih e).congr fun x => (meets_app_of_body hf ha hs).symm
      | _ =>
        simp only [Block.drive_await]
        exact Echo.of_ends (ends_pure none) (ends_pure none) fun _ x => not_meets_app hf (by simp)
    | add pos l r =>
      rw [Term.block, Block.drive_await_bind]
      refine (ih l).andThen (fun _ _ hl x => ?_) fun u _ _ hl => ?_
      · exact (meets_add_of_left (evaluates_of_done hl)).symm
      replace hl := evaluates_of_done hl
      simp only [Block.drive_await_bind, Block.drive_await]
      refine (ih r).andThen (fun _ _ _ x => ?_) fun v _ _ hr => ?_
      · exact (meets_add_of_right hl).symm
      refine Echo.of_ends (ends_pure _) (ends_pure _) fun _ x => ?_
      rw [meets_add_of_right hl]
      exact not_meets_of_evaluates (evaluates_of_done hr) x

/-! ## Outcomes and logs -/

theorem bySubstitution_settles_iff (w : Watch) (e : Term)
    (out : Outcome EvalError (Option Term)) :
    (∃ log, Settles (bySubstitution w · e) out log) ↔ ∃ log, Settles (byBlock w · e) out log := by
  constructor
  · rintro ⟨log, hout, n, hn⟩
    obtain ⟨out', terms, extra, h, h', -⟩ := bySubstitution_echo w n e
    obtain ⟨rfl, -⟩ := Prod.mk.inj (h.eq.symm.trans hn)
    exact ⟨_, hout, n, h'.eq⟩
  · rintro ⟨log, hout, n, hn⟩
    obtain ⟨out', terms, extra, h, h', -⟩ := bySubstitution_echo w n e
    obtain ⟨rfl, -⟩ := Prod.mk.inj (h'.eq.symm.trans hn)
    exact ⟨_, hout, n, h.eq⟩

/-- The two evaluators have the same results and faults, and end together. The chain notes what the
block notes, under its own name, and then the variable that a run without a result has met; if there
is none, it notes nothing more. -/
theorem bySubstitution_echoes_byBlock (w : Watch) (e : Term) :
    (∀ r, Returns (bySubstitution w · e) r ↔ Returns (byBlock w · e) r) ∧
    (∀ err, Raises (bySubstitution w · e) err ↔ Raises (byBlock w · e) err) ∧
    (Halts (bySubstitution w · e) ↔ Halts (byBlock w · e)) ∧
    (∀ n, ∃ extra,
      (bySubstitution w n e []).2 =
        (byBlock w n e []).2.map (Note.relabel .substitution) ++ w.kept extra ∧
      (((byBlock w n e []).1 = .done none ∧ ∃ x, e.Meets x ∧ extra = [.freeVariable x]) ∨
        (¬ ((byBlock w n e []).1 = .done none ∧ ∃ x, e.Meets x) ∧ extra = []))) := by
  refine ⟨fun r => bySubstitution_settles_iff w e _, fun err => bySubstitution_settles_iff w e _,
    exists_congr fun out => bySubstitution_settles_iff w e out, fun n => ?_⟩
  obtain ⟨out, terms, extra, h, h', he⟩ := bySubstitution_echo w n e
  refine ⟨extra, ?_, ?_⟩
  · rw [h.eq, h'.eq, Watch.map_relabel_traced]
  · rw [h'.eq]
    exact he

end EffectCalculus
