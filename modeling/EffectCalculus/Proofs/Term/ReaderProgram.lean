import EffectCalculus.Proofs.Effect.Stack
import EffectCalculus.Proofs.Script.Steady
import EffectCalculus.Term.ReaderProgram

/-!
# The substitution reader as an effect program

Making the reader program for a term does what `Term.substReader` does: it ends with the error for
the first atom that lies under no binder, or with a program. That program can be run in any number
of environments, and gives in each what the substitution gives.

* `SubstReader.answer`: what an operation on terms gives, for effect programs;
* `SubstReader.Reads`: a program is a reader for a substitution, with one lemma for each way to put
  programs together;
* `SubstReader.Makes`, `SubstReader.program_makes`: **the program is made as the reader is**;
* `SubstReader.program_agree_substViaReader`: making a program and running it once.
-/

namespace EffectCalculus.SubstReader

open Run Term Unbounded

/-! ## The host -/

theorem program_follows (e : Term) : Follows fun go : Go => program go e := by
  induction e with
  | var | abs => exact Follows.task _
  | num | atom => exact Follows.const _
  | app pos f a ihf iha => exact ihf.bind fun _ => iha.bind fun _ => fmap2_follows _ _ _
  | add pos l r ihl ihr => exact ihl.bind fun _ => ihr.bind fun _ => fmap2_follows _ _ _

theorem call_follows (k : Callback) (args : List Item) :
    Follows fun go : Go => k.call go args := by
  unfold Callback.call
  split
  case h_2 pos y b env =>
    refine (Follows.const _).bind fun x => ?_
    split
    · exact Follows.const _
    · exact (program_follows b).bind fun _ => fmap_follows _ _
  all_goals exact Follows.const _

theorem host_steady : host.Steady where
  call h k args := call_follows k args h
  start _ _ := Below.refl _
  resume _ p := nomatch p

/-! ## Readers -/

/-- What an operation on terms gives, for effect programs. -/
def answer : Except EvalError Term → Act Unit Item
  | .ok t => return t.datum
  | .error err => Run.fault (.raised err.message)

theorem answer_bind {m : Except EvalError Term} {k : Term → Except EvalError Term}
    {K : Item → Unbounded EffectError Unit Item}
    (hk : ∀ t, m = .ok t → K t.datum = (answer (k t)).result) :
    (answer m).result >>= K = (answer (m >>= k)).result := by
  cases m with
  | error err => rfl
  | ok t => exact hk t rfl

/-- In every environment the program gives what the substitution gives. -/
def Reads (m : ReaderProg Callback Empty) (s : Substitution) : Prop :=
  ∀ x r, host.does (.runReader m (environment x r)) = (answer (s (x, r))).result

namespace Reads

variable {m m' : ReaderProg Callback Empty} {s s' : Substitution}

theorem pure (t : Term) : Reads (.pure t.datum) fun _ => .ok t :=
  fun _ _ => Host.does_runReader_pure host_steady _ _

/-- A function of the result. -/
theorem map (node : Term → Term) {k : Callback}
    (hk : ∀ go t, k.call go [t.datum] = Pure.pure (node t).datum) (hm : Reads m s) :
    Reads (.bind m (.unitAfter .reader (.host k)))
      fun env => s env >>= fun t => Pure.pure (node t) := by
  intro x r
  rw [Host.does_runReader_bind host_steady, hm x r]
  refine answer_bind fun t _ => ?_
  rw [Host.does_unitAfter host_steady, Host.does_host host_steady fun go => hk go t, pure_bind]
  exact Host.does_runReader_pure host_steady _ _

/-- A function of two results. -/
theorem map₂ {k : Callback} {node : Term → Term → Term}
    (hk : ∀ go t u, k.call go [t.datum, u.datum] = Pure.pure (node t u).datum) (hm : Reads m s)
    (hm' : Reads m' s') :
    Reads (.bind m (.combine .reader (.host k) (.comp (.reader m'))))
      fun env => s env >>= fun t => s' env >>= fun u => Pure.pure (node t u) := by
  intro x r
  rw [Host.does_runReader_bind host_steady, hm x r]
  refine answer_bind fun t _ => ?_
  rw [Host.does_combine host_steady, Host.does_bind_reader host_steady m' rfl, pure_bind]
  show host.does (.runReader _ _) = _
  rw [Host.does_runReader_bind host_steady, hm' x r]
  refine answer_bind fun u _ => ?_
  rw [Host.does_combineWith host_steady, Host.does_host host_steady fun go => hk go t u, pure_bind]
  exact Host.does_runReader_pure host_steady _ _

end Reads

/-! ## Making readers -/

/-- The action makes a program for the substitution, or ends with the error. -/
def Makes (build : Go → Act Unit Item) : Except EvalError Substitution → Prop
  | .ok s => ∃ m, host.unbounded build = pure (.comp (.reader m)) ∧ Reads m s
  | .error err => host.unbounded build = .fault (.raised err.message)

namespace Makes

variable {build build' : Go → Act Unit Item} {m m' : Except EvalError Substitution}

/-- Two programs, of which the second is made once the first one is, and a function of both
results. -/
theorem map₂ {k : Callback} {node : Term → Term → Term}
    (hk : ∀ go t u, k.call go [t.datum, u.datum] = pure (node t u).datum) (h : Makes build m)
    (h' : Makes build' m') (hb : Follows build) (hb' : Follows build') :
    Makes (fun go => build go >>= fun a => build' go >>= fun b => fmap2 go (.host k) a b)
      (m >>= fun s => m' >>= fun s' =>
        pure fun env => s env >>= fun t => s' env >>= fun u => pure (node t u)) := by
  have parts : host.unbounded
      (fun go => build go >>= fun a => build' go >>= fun b => fmap2 go (.host k) a b) =
        host.unbounded build >>= fun a => host.unbounded build' >>= fun b =>
          host.unbounded fun go => fmap2 go (.host k) a b := by
    rw [Host.unbounded_bind host_steady hb fun a => hb'.bind fun b => fmap2_follows _ _ _]
    refine congrArg _ (funext fun a => ?_)
    exact Host.unbounded_bind host_steady hb' fun b => fmap2_follows _ _ _
  cases m with
  | error err =>
    have failed : host.unbounded build = .fault (.raised err.message) := h
    show host.unbounded _ = _
    rw [parts, failed]
    rfl
  | ok s =>
    obtain ⟨p, hp, hs⟩ := h
    cases m' with
    | error err =>
      have failed : host.unbounded build' = .fault (.raised err.message) := h'
      show host.unbounded _ = _
      rw [parts, hp, failed]
      rfl
    | ok s' =>
      obtain ⟨q, hq, hs'⟩ := h'
      refine ⟨_, ?_, hs.map₂ hk hs'⟩
      rw [parts, hp, hq, pure_bind, pure_bind]
      exact Host.does_bind_reader host_steady p rfl

end Makes

theorem call_choose (go : Go) (pos : Pos) (x y : String) (r : Term) :
    (Callback.choose pos y).call go [environment x r] =
      pure (if x = y then r else .var pos y).datum := by
  show (if Datum.same (.text x) (.text y) then pure r.datum
    else pure (Term.var pos y).datum : Act Unit Item) = _
  by_cases hxy : x = y <;> simp [Datum.same, hxy]

theorem does_under_self (pos : Pos) (y : String) (r b : Term) :
    host.does (.call (.host (.under pos y b)) [environment y r]) =
      pure (.comp (.reader (.pure (Term.abs pos y b).datum))) := by
  refine Host.does_host host_steady fun go => ?_
  show (if Datum.same (.text y) (.text y) then unitOf .reader (Term.abs pos y b).datum
    else program go b >>= fun inner => fmap go (.host (.abs pos y)) inner) = _
  simp only [Datum.same, decide_true, ↓reduceIte]
  rfl

/-- Below a binder of another name the program for the body is made, and then its result put under
the binder. -/
theorem does_under {x y : String} (hxy : x ≠ y) (pos : Pos) (r b : Term) :
    host.does (.call (.host (.under pos y b)) [environment x r]) =
      host.unbounded (fun go => program go b) >>= fun inner =>
        host.unbounded fun go => fmap go (.host (.abs pos y)) inner := by
  rw [Host.does_eq host_steady]
  refine Eq.trans (congrArg host.unbounded (funext fun go => ?_))
    (Host.unbounded_bind host_steady (program_follows b) fun _ => fmap_follows _ _)
  show (if Datum.same (.text x) (.text y) then unitOf .reader (Term.abs pos y b).datum
    else program go b >>= fun inner => fmap go (.host (.abs pos y)) inner) = _
  simp [Datum.same, hxy]

theorem reads_abs {pos : Pos} {y : String} {b : Term}
    (ih : Makes (fun go => program go b) b.substReader) :
    Reads (.bind .ask (.host (.under pos y b))) fun (x, r) =>
      if x = y then .ok (.abs pos y b)
      else do
        let inner ← b.substReader
        let b ← inner (x, r)
        return .abs pos y b := by
  intro x r
  rw [Host.does_runReader_bind host_steady, Host.does_runReader_ask host_steady, pure_bind]
  by_cases hxy : x = y
  · subst hxy
    rw [does_under_self, pure_bind]
    simp only [↓reduceIte]
    exact Reads.pure (.abs pos x b) x r
  · rw [does_under hxy]
    simp only [hxy, ↓reduceIte]
    cases hb : b.substReader with
    | error err =>
      rw [hb] at ih
      have failed : host.unbounded (fun go => program go b) = .fault (.raised err.message) := ih
      rw [failed]
      rfl
    | ok s =>
      rw [hb] at ih
      obtain ⟨p, hp, hs⟩ := ih
      have mapped : host.unbounded (fun go => fmap go (.host (.abs pos y)) (.comp (.reader p))) =
          pure (.comp (.reader (.bind p (.unitAfter .reader (.host (.abs pos y)))))) :=
        Host.does_bind_reader host_steady p rfl
      rw [hp, pure_bind, mapped, pure_bind]
      exact hs.map (Term.abs pos y) (fun _ _ => rfl) x r

/-- **The program is made as the reader is**, and gives in every environment what the reader
gives. -/
theorem program_makes (e : Term) : Makes (fun go => program go e) e.substReader := by
  induction e with
  | var pos y =>
    refine ⟨_, Host.does_map_reader host_steady _ _, fun x r => ?_⟩
    rw [Host.does_runReader_map host_steady, Host.does_runReader_ask host_steady, pure_bind]
    exact Host.does_host host_steady fun go => call_choose go pos x y r
  | abs pos y b ih => exact ⟨_, Host.does_bind_reader host_steady _ rfl, reads_abs ih⟩
  | app pos f a ihf iha =>
    exact .map₂ (fun _ _ _ => rfl) ihf iha (program_follows f) (program_follows a)
  | num pos n => exact ⟨_, Host.unbounded_const _, Reads.pure (Term.num pos n)⟩
  | add pos l r ihl ihr =>
    exact .map₂ (fun _ _ _ => rfl) ihl ihr (program_follows l) (program_follows r)
  | atom a => exact Host.unbounded_const _

/-- A program that is made and run once substitutes as the reader does: with the same result, or the
same error. -/
theorem viaProgram_agree_substViaReader (x : String) (r e : Term) :
    Agree (fun n => viaProgram (perform host n) x r e)
      (fun _ => answer (substViaReader x r e)) := by
  have runs : ∀ d : Item, Follows fun go : Go =>
      d.asComp "run" >>= fun c => c.run go (some (environment x r)) :=
    fun d => (Follows.const _).bind fun c => c.run_follows _
  have rising : Rising fun n => viaProgram (perform host n) x r e :=
    host_steady.rising ((program_follows e).bind runs)
  rw [agree_iff rising fun _ _ _ => Below.refl _, unbounded_const]
  refine (Host.unbounded_bind host_steady (program_follows e) runs).trans ?_
  have made := program_makes e
  unfold substViaReader
  cases hs : e.substReader with
  | error err =>
    rw [hs] at made
    have failed : host.unbounded (fun go => program go e) = .fault (.raised err.message) := made
    rw [failed]
    rfl
  | ok s =>
    rw [hs] at made
    obtain ⟨p, hp, hreads⟩ := made
    rw [hp, pure_bind]
    exact hreads x r

end EffectCalculus.SubstReader
