import EffectCalculus.Proofs.Effect.Eager

/-!
# Blocks and chains

A block and the chain of binds for its body are the same computation, as far as runs can tell. Both
are built once and run any number of times, each time with environments and states of their own; a
run that fails does not keep the next one from being made.

* `report`: the result of an action, or its error as far as its class goes;
* `Host.session`: a computation that is built once and run several times, with the reports;
* `block_agree_chain`: **the reports on a block are those on its chain**.
-/

namespace EffectCalculus

open Run Unbounded

variable {σ F P α : Type}

/-! ## Reports -/

/-- Ends with a result in any case: that of the action, or its error as far as its class goes. -/
def report (m : Act σ α) : Act σ (Except EffectError α) := fun w =>
  match m w with
  | (.done a, w') => (.done (.ok a), w')
  | (.fault err, w') => (.done (.error err.coarse), w')
  | (.unfinished, w') => (.unfinished, w')

/-- The end as it is reported. -/
def reported (r : Except EffectError α) : Except EffectError (Except EffectError α) :=
  .ok (r.mapError EffectError.coarse)

theorem result_report (m : Act σ α) : (report m).result = m.result.ended reported := by
  funext w
  rcases h : m w with ⟨a | err | _, w'⟩ <;>
    simp [report, result, ended, reported, Except.mapError, h]

/-- Errors are reported alike whether or not failed checks are told apart before. -/
theorem ended_coarse_bind {β : Type} (m : Unbounded EffectError σ α)
    (k : α → Unbounded EffectError σ β) :
    (m.ended (Except.mapError EffectError.coarse) >>= k).ended reported =
      (m >>= k).ended reported := by
  funext w
  cases hw : m w with
  | none => simp [ended, bind_apply, hw]
  | some p =>
    obtain ⟨r, w'⟩ := p
    cases r with
    | ok a => simp [ended, bind_apply, hw, Except.mapError]
    | error err =>
      simp [ended, bind_apply, hw, Except.mapError, reported, EffectError.coarse_coarse]

/-- The check for the maybe effect, as it is reported. -/
theorem ended_coarse_ensure (m : Unbounded EffectError σ (Datum F P)) (slot : Slot) :
    (m >>= fun d => (d.ensure slot .maybe).result).ended (Except.mapError EffectError.coarse) =
      m.ended strictly := by
  funext w
  cases hw : m w with
  | none => simp [ended, bind_apply, hw]
  | some p =>
    obtain ⟨r, w'⟩ := p
    cases r with
    | ok d =>
      by_cases hd : d.isA .maybe = true <;>
        simp [ended, bind_apply, hw, Datum.ensure, hd, Unbounded.pure_apply,
          Unbounded.fault_apply, Except.mapError, strictly, EffectError.coarse]
    | error err => simp [ended, bind_apply, hw, Except.mapError, strictly]

theorem report_below {m m' : Act σ α} (h : Below m m') : Below (report m) (report m') := by
  intro w hw
  have hm : (m w).1 ≠ .unfinished := by
    intro hu
    apply hw
    unfold report
    split <;> simp_all
  unfold report
  rw [h w hm]

theorem unbounded_report {f : Nat → Act σ α} (hf : Rising f) :
    unbounded (fun n => report (f n)) = (unbounded f).ended reported := by
  have rising : Rising fun n => report (f n) := fun _ _ h => report_below (hf h)
  apply le_antisymm
  · refine unbounded_le fun n => ?_
    rw [result_report]
    exact ended_le (result_le_unbounded hf n) reported
  · refine unbounded_ended_le fun n => ?_
    rw [← result_report]
    exact result_le_unbounded rising n

/-! ## Sessions -/

/-- Runs the computation once with each of the inputs. -/
def Effect.runs (go : Performer σ F P) (e : Effect) (d : Datum F P) :
    List (Inputs F P) → Act σ (List (Except EffectError (Datum F P)))
  | [] => return []
  | inputs :: rest => do
    let r ← report (e.complete go d inputs)
    let rs ← e.runs go d rest
    return r :: rs

/-- Builds a computation once and runs it with each of the inputs. -/
def Host.session (host : Host σ F P) (e : Effect) (build : Performer σ F P → Act σ (Datum F P))
    (runs : List (Inputs F P)) (n : Nat) :
    Act σ (Except EffectError (List (Except EffectError (Datum F P)))) :=
  report (build (perform host n) >>= fun d => e.runs (perform host n) d runs)

theorem Effect.runs_follows (e : Effect) (d : Datum F P) (runs : List (Inputs F P)) :
    Follows fun go : Performer σ F P => e.runs go d runs := by
  induction runs with
  | nil => exact Follows.const _
  | cons inputs rest ih =>
    have first : Follows fun go : Performer σ F P => report (e.complete go d inputs) :=
      fun _ _ h => report_below (e.complete_follows d inputs h)
    exact first.bind fun r => ih.bind fun rs => Follows.const _

/-- Linked computations are run in the same way, time after time. -/
theorem Effect.runs_linked {c : Chain F P} {go : Performer σ F P} (hgo : go.InStep c) (e : Effect)
    {d d' : Datum F P} (h : Datum.Linked c d d') (runs : List (Inputs F P)) :
    e.runs go d runs = e.runs go d' runs := by
  induction runs with
  | nil => rfl
  | cons inputs rest ih => rw [Effect.runs, Effect.runs, e.complete_linked hgo h, ih]

namespace Host

variable {host : Host σ F P} {c : Chain F P}

/-- Outside the maybe effect, a block and its chain are reported on alike at every bound. -/
theorem session_block_eq (hc : host.Chains c) (he : c.effect ≠ .maybe) (runs : List (Inputs F P))
    (n : Nat) :
    host.session c.effect (fun go => block go c.effect (.start c.effect c.body)) runs n =
      host.session c.effect (fun go => block go c.effect (.host c.first)) runs n := by
  have inStep := perform_linked hc he n
  have build : Run.Match (Datum.Linked c)
      (block (perform host n) c.effect (.start c.effect c.body))
      (block (perform host n) c.effect (.host c.first)) := by
    refine (Run.Match.refl (fun _ => rfl) _).bind fun d _ h => ?_
    subst h
    exact inStep (.bind d .start)
  unfold session
  refine congrArg report (build.bind fun d d' h => ?_).eq
  rw [Effect.runs_linked inStep _ h]
  exact .refl (fun _ => rfl) _

section Steady

variable (hs : host.Steady)

include hs

theorem rising_session {e : Effect} {build : Performer σ F P → Act σ (Datum F P)}
    (hb : Follows build) (runs : List (Inputs F P)) : Rising (host.session e build runs) :=
  fun _ _ h => report_below (hs.rising (hb.bind fun d => e.runs_follows d runs) h)

/-- What a session comes to: failed checks while the computation is built are all reported alike. -/
theorem unbounded_session {e : Effect} {build : Performer σ F P → Act σ (Datum F P)}
    (hb : Follows build) (runs : List (Inputs F P)) :
    Run.unbounded (host.session e build runs) =
      (host.unbounded build >>= fun d => host.unbounded fun go => e.runs go d runs).ended
        reported := by
  refine (unbounded_report (hs.rising (hb.bind fun d => e.runs_follows d runs))).trans ?_
  rw [← unbounded_bind hs hb fun d => e.runs_follows d runs]
  rfl

/-- A block of the maybe effect opens its body, and then checks what the body comes to. -/
theorem unbounded_block_maybe (f : Fn F P) :
    host.unbounded (fun go => block go .maybe f) =
      host.does (.call f [.null]) >>= fun d => (d.ensure .flatMap .maybe).result := by
  rw [← does_bind_some hs]
  rfl

/-- Opening the body, for the block and for its chain. -/
theorem does_call_start (e : Effect) (body : F) :
    host.does (.call (.start e body) [.null]) =
      (host.unbounded fun go => host.start go body) >>= fun p =>
        host.does (.call (.resume e p) [.null]) := by
  have starts : Follows fun go : Performer σ F P => host.start go body :=
    fun _ _ h => hs.start h body
  rw [does_eq hs]
  exact unbounded_bind hs starts fun p => Follows.task _

theorem does_call_first (hc : host.Chains c) :
    host.does (.call (.host c.first) [.null]) =
      (host.unbounded fun go => host.start go c.body) >>= fun p =>
        host.does (.call (.host (c.link p)) [.null]) := by
  have starts : Follows fun go : Performer σ F P => host.start go c.body :=
    fun _ _ h => hs.start h c.body
  rw [does_eq hs]
  simp only [Task.attempt, Fn.callWith, hc.first]
  exact unbounded_bind hs starts fun p => Follows.task _

/-- In the maybe effect, a block and its chain are reported on alike in the end. -/
theorem session_block_agree (hc : host.Chains c) (he : c.effect = .maybe)
    (runs : List (Inputs F P)) :
    Agree (host.session .maybe (fun go => block go .maybe (.start .maybe c.body)) runs)
      (host.session .maybe (fun go => block go .maybe (.host c.first)) runs) := by
  have follows : ∀ f : Fn F P, Follows fun go : Performer σ F P => block go .maybe f :=
    fun f => (Follows.const _).bind fun d => Follows.task _
  have driven : (host.does (.call (.start .maybe c.body) [.null])).ended strictly =
      (host.does (.call (.host c.first) [.null])).ended strictly := by
    rw [does_call_start hs, does_call_first hs hc]
    exact ended_bind_congr fun p =>
      (drives_resume hs).does_eq hs (drives_link hs hc he) p .null
  rw [agree_iff (rising_session hs (follows _) runs) (rising_session hs (follows _) runs),
    unbounded_session hs (follows _), unbounded_session hs (follows _), ← ended_coarse_bind,
    unbounded_block_maybe hs, ended_coarse_ensure, driven, ← ended_coarse_ensure _ .flatMap,
    ← unbounded_block_maybe hs, ended_coarse_bind]

end Steady

end Host

/-- Built once and run any number of times, with any environments and states, a block has the same
reports as the chain of binds for its body, whatever its effect: the same results with the same final
states, the same absence, and the same errors up to what a failed check has met. The body may be a
process of the world that can be resumed only once; both leave the same world. -/
theorem block_agree_chain {host : Host σ F P} (hs : host.Steady) {c : Chain F P}
    (hc : host.Chains c) (runs : List (Inputs F P)) :
    Agree (host.session c.effect (fun go => block go c.effect (.start c.effect c.body)) runs)
      (host.session c.effect (fun go => block go c.effect (.host c.first)) runs) := by
  by_cases he : c.effect = .maybe
  · rw [he]
    exact Host.session_block_agree hs hc he runs
  · intro w out w'
    rw [funext (Host.session_block_eq hc he runs)]

/-! ## A sample host -/

/-- The callbacks for two bodies: each body, its opening, and its rest. -/
inductive TapeFn
  | body (b : Bool)
  | first (b : Bool)
  | link (b p : Bool)

/-- A chain for a body of the maybe effect, and one for a body of the reader effect. -/
def tapeChain (b : Bool) : Chain TapeFn Bool where
  effect := if b then .maybe else .reader
  body := .body b
  first := .first b
  link := .link b

/-- Bodies whose place is kept in the world, so that none is resumed twice from one place. The first
yields a computation of another effect, a present result and a computation of a third effect; the
second yields its environment and returns it. -/
def tapeBodies : Host Nat TapeFn Bool where
  call _ _ _ := Run.fault (.unsupported "call" "function")
  start _ f := fun _ =>
    match f with
    | .body b | .first b | .link b _ => (.done b, 0)
  resume _ b sent := fun place =>
    match b, place with
    | true, 0 => (.done (.yielded (.comp (.identity (.int 1))) b), 1)
    | true, 1 => (.done (.yielded (.comp (.some (.int 2))) b), 2)
    | true, 2 | false, 0 => (.done (.yielded (.comp (.reader .ask)) b), place + 1)
    | _, _ => (.done (.returned sent), place + 1)

/-- The bodies with the callbacks of their chains. -/
def tape : Host Nat TapeFn Bool :=
  { tapeBodies with
    call := fun go f args =>
      match f, args with
      | .first b, [_] =>
        tapeBodies.start go (.body b) >>= fun p => go (.call (.host (.link b p)) [.null])
      | .link b p, [x] => (tapeChain b).advance tapeBodies go p x
      | _, _ => Run.fault (.unsupported "call" "function") }

theorem tape_steady : tape.Steady where
  call h f args := by
    dsimp only [tape]
    split
    · exact (Below.refl _).bind fun p => h _
    · refine (Below.refl _).bind fun progress => ?_
      cases progress with
      | returned v => exact Below.refl _
      | yielded d rest =>
        cases d with
        | comp m => exact h _
        | _ => exact Below.refl _
    · exact Below.refl _
  start _ _ := Below.refl _
  resume _ _ _ := Below.refl _

theorem tape_chains (b : Bool) : tape.Chains (tapeChain b) where
  first _ _ := rfl
  link _ _ _ := rfl

/-- A block of the maybe effect that meets two other effects fails a check, as its chain does, which
fails it earlier; a block that reads its environment is run twice, and opens its body each time. -/
theorem block_agree_chain_tape :
    tape.Steady ∧ tape.Chains (tapeChain true) ∧ tape.Chains (tapeChain false) ∧
    Settles (tape.session .maybe (fun go => block go .maybe (.start .maybe (.body true)))
      [Stream'.const .null]) 7 (.done (.error .check)) 3 ∧
    Settles (tape.session .reader (fun go => block go .reader (.start .reader (.body false)))
      [Stream'.const (.int 5), Stream'.const (.int 6)]) 7
      (.done (.ok [.ok (.int 5), .ok (.int 6)])) 2 := by
  refine ⟨tape_steady, tape_chains true, tape_chains false, ?_, ?_⟩
  · exact (block_agree_chain tape_steady (tape_chains true) _ _ _ _).mpr ⟨by simp, 20, rfl⟩
  · exact (block_agree_chain tape_steady (tape_chains false) _ _ _ _).mpr ⟨by simp, 20, rfl⟩

end EffectCalculus
