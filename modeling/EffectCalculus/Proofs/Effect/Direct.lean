import EffectCalculus.Proofs.Script.Steady

/-!
# Direct state passing

A state program runs as a loop over its single steps, with the binders still to be called on a
stack. Said directly, a step acts on the state, and a bound program first does its source and then,
with the state and the result that come out, what its binder makes of the result.

* `StateProg.direct`: the direct meaning;
* `StateProg.rebind`: **the invariant of the loop**, the stack of binders put back around the
  current program;
* `Host.does_runState`: the loop comes to the direct meaning;
* `Host.recording`: the host with a record of what is asked of it;
* `runState_agree_direct`: the loop and the direct meaning end together, in the same way, after the
  same requests to the host in the same order.
-/

namespace EffectCalculus

open Run Unbounded

variable {σ F P : Type}

/-! ## The direct meaning -/

/-- The direct meaning of a program; `again` is the meaning of those that binders make. -/
def StateProg.directWith (go : Performer σ F P)
    (again : StateProg F P → Datum F P → Act σ (Datum F P × Datum F P)) :
    StateProg F P → Datum F P → Act σ (Datum F P × Datum F P)
  | .step st, s => st.runWith go s
  | .bind m f, s => do
    let (s, v) ← m.directWith go again s
    let next ← go (.call f [v])
    match next with
    | .comp (.state m) => again m s
    | d => Run.fault (.wrongEffect .binder .state d.kind)

/-- The direct meaning of a state program: from a state to the final state and the result. The bound
is on how deep binders make further programs. -/
def StateProg.direct (host : Host σ F P) :
    Nat → StateProg F P → Datum F P → Act σ (Datum F P × Datum F P)
  | 0, _, _ => Run.unfinished
  | n + 1, m, s => m.directWith (perform host n) (direct host n) s

/-- A final state and a result as the datum that a run gives. -/
def paired : Datum F P × Datum F P → Act σ (Datum F P)
  | (s, v) => return .tuple [s, v]

theorem StateProg.directWith_below {go go' : Performer σ F P} (h : go.Below go')
    {again again' : StateProg F P → Datum F P → Act σ (Datum F P × Datum F P)}
    (ha : ∀ m s, Below (again m s) (again' m s)) (m : StateProg F P) (s : Datum F P) :
    Below (m.directWith go again s) (m.directWith go' again' s) := by
  match m with
  | .step st => exact StateStep.runWith_below h st s
  | .bind m f =>
    refine (directWith_below h ha m s).bind fun _ => (h _).bind fun next => ?_
    split
    · exact ha _ _
    · exact Below.refl _

namespace Host

variable {host : Host σ F P}

theorem direct_below_succ (hs : host.Steady) (n : Nat) (m : StateProg F P) (s : Datum F P) :
    Below (m.direct host n s) (m.direct host (n + 1) s) := by
  induction n generalizing m s with
  | zero => exact unfinished_below _
  | succ n ih => exact StateProg.directWith_below (perform_below_succ hs n) ih m s

theorem Steady.rising_direct (hs : host.Steady) (m : StateProg F P) (s : Datum F P) :
    Rising fun n => m.direct host n s :=
  fun _ _ h => below_of_succ (fun n => direct_below_succ hs n m s) h

/-- What the direct meaning of a program comes to. -/
noncomputable def passes (host : Host σ F P) (m : StateProg F P) (s : Datum F P) :
    Unbounded EffectError σ (Datum F P × Datum F P) :=
  Run.unbounded fun n => m.direct host n s

/-- What a binder comes to that gets the result of a pair; `again` runs the program that it makes
in the state of the pair. -/
noncomputable def binds (host : Host σ F P) {α : Type} (f : Fn F P)
    (again : StateProg F P → Datum F P → Unbounded EffectError σ α) :
    Datum F P × Datum F P → Unbounded EffectError σ α
  | (s, v) => host.does (.call f [v]) >>= fun
    | .comp (.state m) => again m s
    | d => .fault (.wrongEffect .binder .state d.kind)

theorem binds_bind {α β : Type} (f : Fn F P)
    (again : StateProg F P → Datum F P → Unbounded EffectError σ α)
    (k : α → Unbounded EffectError σ β) (p : Datum F P × Datum F P) :
    host.binds f again p >>= k = host.binds f (fun m s => again m s >>= k) p := by
  simp only [binds, bind_assoc]
  congr 1
  funext next
  split
  · rfl
  · exact fault_bind _ _

section Steady

variable (hs : host.Steady)

include hs

theorem passes_step (st : StateStep F P) (s : Datum F P) :
    host.passes (.step st) s = host.unbounded fun go => st.runWith go s :=
  (unbounded_succ (hs.rising_direct (.step st) s)).symm

theorem passes_bind (m : StateProg F P) (f : Fn F P) (s : Datum F P) :
    host.passes (.bind m f) s = host.passes m s >>= host.binds f host.passes := by
  have again : ∀ (next s : Datum F P), Rising fun n => match next with
      | .comp (.state m) => m.direct host n s
      | d => Run.fault (.wrongEffect .binder .state d.kind) := by
    intro next s
    split
    · exact hs.rising_direct _ s
    · exact fun _ _ _ => Below.refl _
  have source : Rising fun n => m.direct host (n + 1) s :=
    fun _ _ h => hs.rising_direct m s (Nat.succ_le_succ h)
  have binder : ∀ p : Datum F P × Datum F P, Rising fun n =>
      perform host n (.call f [p.2]) >>= fun next => match next with
      | .comp (.state m) => m.direct host n p.1
      | d => Run.fault (.wrongEffect .binder .state d.kind) :=
    fun p => (hs.rising (Follows.task _)).bind fun next => again next p.1
  rw [passes, ← unbounded_succ (hs.rising_direct _ s)]
  refine (Run.unbounded_bind source binder).trans ?_
  rw [unbounded_succ (hs.rising_direct m s)]
  refine congrArg _ (funext fun p => ?_)
  refine (Run.unbounded_bind (hs.rising (Follows.task _)) fun next => again next p.1).trans ?_
  refine congrArg _ (funext fun next => ?_)
  split
  · rfl
  · exact Run.unbounded_const _

end Steady

end Host

/-! ## The stack of the loop -/

/-- The program with the binders of a stack put back around it. -/
def StateProg.rebind (m : StateProg F P) : List (Fn F P) → StateProg F P
  | [] => m
  | f :: pending => (StateProg.bind m f).rebind pending

/-- Going to the first step keeps the whole program. -/
theorem StateProg.rebind_unwind (m : StateProg F P) (pending : List (Fn F P)) :
    (StateProg.step (m.unwind pending).1).rebind (m.unwind pending).2 = m.rebind pending := by
  match m with
  | .step _ => rfl
  | .bind m f => exact rebind_unwind m (f :: pending)

namespace Host

variable {host : Host σ F P} (hs : host.Steady)

include hs

/-- The binder next on the stack is called with what the current program gives. -/
theorem passes_rebind_cons (m : StateProg F P) (f : Fn F P) (pending : List (Fn F P))
    (s : Datum F P) :
    host.passes (m.rebind (f :: pending)) s =
      host.passes m s >>= host.binds f fun m s => host.passes (m.rebind pending) s := by
  induction pending generalizing m f s with
  | nil => exact passes_bind hs m f s
  | cons g pending ih =>
    calc host.passes (m.rebind (f :: g :: pending)) s
        = host.passes (.bind m f) s >>=
            host.binds g fun m s => host.passes (m.rebind pending) s :=
          ih (.bind m f) g s
      _ = host.passes m s >>= host.binds f fun m s =>
            host.passes m s >>= host.binds g fun m s => host.passes (m.rebind pending) s := by
          rw [passes_bind hs, bind_assoc]
          simp only [binds_bind]
      _ = host.passes m s >>= host.binds f fun m s => host.passes (m.rebind (g :: pending)) s := by
          simp only [ih]

/-- **The loop ends only as the direct meaning does.** -/
theorem runState_le (n : Nat) (pending : List (Fn F P)) (m : StateProg F P) (s : Datum F P) :
    (perform host n (.runState pending m s)).result ≤
      host.passes (m.rebind pending) s >>= fun p => (paired p).result := by
  induction n generalizing pending m s with
  | zero => exact fun _ _ h => nomatch h
  | succ n ih =>
    rw [← StateProg.rebind_unwind m pending]
    change (Task.attempt host (perform host n) (.runState pending m s)).result ≤ _
    simp only [Task.attempt, result_bind]
    generalize m.unwind pending = current
    obtain ⟨st, pending⟩ := current
    have hstep : (st.runWith (perform host n) s).result ≤ host.passes (.step st) s := by
      rw [passes_step hs]
      exact result_le_unbounded
        (hs.rising fun _ _ h => StateStep.runWith_below h st s) n
    cases pending with
    | nil =>
      refine bind_le_bind hstep fun p => ?_
      exact le_refl _
    | cons f pending =>
      rw [passes_rebind_cons hs, bind_assoc]
      refine bind_le_bind hstep fun p => ?_
      rw [binds_bind, result_bind]
      refine bind_le_bind (result_le_unbounded (hs.rising (Follows.task _)) n) fun next => ?_
      cases next with
      | comp c =>
        cases c with
        | state m => exact ih pending m p.1
        | _ => exact le_refl _
      | _ => exact le_refl _

/-- What the loop does after a pair: it calls the pending binders. -/
noncomputable def drains (host : Host σ F P) :
    List (Fn F P) → Datum F P × Datum F P → Unbounded EffectError σ (Datum F P)
  | [], p => (paired p).result
  | f :: pending, p => host.binds f (fun m s => host.does (.runState pending m s)) p

theorem does_runState_step (pending : List (Fn F P)) (st : StateStep F P) (s : Datum F P) :
    host.does (.runState pending (.step st) s) =
      host.passes (.step st) s >>= host.drains pending := by
  have hst : Follows fun go : Performer σ F P => st.runWith go s :=
    fun _ _ h => StateStep.runWith_below h st s
  rw [does_eq hs, passes_step hs]
  cases pending with
  | nil =>
    refine (unbounded_bind hs hst fun p => Follows.const (paired p)).trans ?_
    simp only [unbounded_const]
    rfl
  | cons f pending =>
    have again : ∀ (next s : Datum F P), Follows fun go : Performer σ F P => match next with
        | .comp (.state m) => go (.runState pending m s)
        | d => Run.fault (.wrongEffect .binder .state d.kind) := by
      intro next s
      split
      · exact Follows.task _
      · exact Follows.const _
    refine (unbounded_bind hs hst fun p => (Follows.task (.call f [p.2])).bind fun next =>
      again next p.1).trans ?_
    refine congrArg _ (funext fun p => ?_)
    refine (unbounded_task_bind hs _ fun next => again next p.1).trans ?_
    refine congrArg _ (funext fun next => ?_)
    split
    · rfl
    · exact unbounded_const _

theorem does_runState_bind (pending : List (Fn F P)) (m : StateProg F P) (f : Fn F P)
    (s : Datum F P) :
    host.does (.runState pending (.bind m f) s) = host.does (.runState (f :: pending) m s) := by
  rw [does_eq hs, does_eq hs]
  rfl

/-- The step of the induction: the recursion here is on the program, and the programs that binders
make are left to the smaller bound. -/
theorem directWith_le {n : Nat}
    (ih : ∀ (m : StateProg F P) (s : Datum F P) (pending : List (Fn F P)),
      (m.direct host n s).result >>= host.drains pending ≤ host.does (.runState pending m s))
    (m : StateProg F P) (s : Datum F P) (pending : List (Fn F P)) :
    (m.direct host (n + 1) s).result >>= host.drains pending ≤
      host.does (.runState pending m s) := by
  match m with
  | .step st =>
    rw [does_runState_step hs]
    exact bind_le_bind (result_le_unbounded (hs.rising_direct _ s) (n + 1)) fun _ => le_refl _
  | .bind m f =>
    rw [does_runState_bind hs]
    refine le_trans ?_ (directWith_le ih m s (f :: pending))
    change (m.direct host (n + 1) s >>= _).result >>= _ ≤ _
    rw [result_bind, bind_assoc]
    refine bind_le_bind (le_refl _) fun p => ?_
    rw [result_bind, bind_assoc]
    refine bind_le_bind (result_le_unbounded (hs.rising (Follows.task _)) n) fun next => ?_
    cases next with
    | comp c =>
      cases c with
      | state m => exact ih m p.1 pending
      | _ => exact le_refl _
    | _ => exact le_refl _

/-- **The direct meaning ends only as the loop does.** -/
theorem direct_le (n : Nat) (m : StateProg F P) (s : Datum F P) (pending : List (Fn F P)) :
    (m.direct host n s).result >>= host.drains pending ≤ host.does (.runState pending m s) := by
  induction n generalizing m s pending with
  | zero => exact fun _ _ h => nomatch h
  | succ n ih => exact directWith_le hs ih m s pending

/-- The loop comes to the direct meaning. -/
theorem does_runState (m : StateProg F P) (s : Datum F P) :
    host.does (.runState [] m s) = host.passes m s >>= fun p => (paired p).result := by
  apply le_antisymm
  · exact unbounded_le fun n => runState_le hs n [] m s
  · exact unbounded_bind_le fun n => direct_le hs n m s []

theorem runState_agree (m : StateProg F P) (s : Datum F P) :
    Agree (fun n => perform host n (.runState [] m s))
      (fun n => m.direct host n s >>= paired) := by
  have constant : ∀ p : Datum F P × Datum F P, Rising fun _ => (paired p : Act σ _) :=
    fun p _ _ _ => Below.refl _
  rw [agree_iff (hs.rising (Follows.task _)) ((hs.rising_direct m s).bind constant)]
  refine (does_runState hs m s).trans ?_
  rw [Run.unbounded_bind (hs.rising_direct m s) constant]
  simp only [Run.unbounded_const]
  rfl

end Host

/-! ## Requests -/

/-- What a host may be asked to do. -/
inductive Request (F P : Type)
  | call (f : F) (args : List (Datum F P))
  | start (f : F)
  | resume (p : P) (d : Datum F P)

/-- The performer on the world alone; the record stays at `requests`. -/
def Performer.unrecorded (requests : List (Request F P))
    (go : Performer (σ × List (Request F P)) F P) : Performer σ F P := fun t w =>
  match go t (w, requests) with
  | (out, w', _) => (out, w')

/-- Adds a request to the record of an action. -/
def recorded {α : Type} (r : Request F P)
    (act : Performer σ F P → Act σ α) (go : Performer (σ × List (Request F P)) F P) :
    Act (σ × List (Request F P)) α := fun w =>
  match act (go.unrecorded w.2) w.1 with
  | (out, w') => (out, w', w.2 ++ [r])

/-- The host with a record of what it is asked to do, oldest first. What it asks for in turn is not
recorded. -/
def Host.recording (host : Host σ F P) : Host (σ × List (Request F P)) F P where
  call go f args := recorded (.call f args) (host.call · f args) go
  start go f := recorded (.start f) (host.start · f) go
  resume go p d := recorded (.resume p d) (host.resume · p d) go

theorem Performer.unrecorded_below {go go' : Performer (σ × List (Request F P)) F P}
    (h : go.Below go') (requests : List (Request F P)) :
    (go.unrecorded requests).Below (go'.unrecorded requests) := by
  intro t w hw
  unfold Performer.unrecorded at hw ⊢
  rw [h t (w, requests) hw]

theorem recorded_follows {α : Type} {r : Request F P} {act : Performer σ F P → Act σ α}
    (hact : Follows act) : Follows (recorded r act) := by
  intro go go' h w hw
  have hact' := hact (Performer.unrecorded_below h w.2) w.1 hw
  simp only [recorded, hact']

theorem Host.Steady.recording {host : Host σ F P} (hs : host.Steady) :
    host.recording.Steady where
  call h f args := recorded_follows (fun _ _ h => hs.call h f args) h
  start h f := recorded_follows (fun _ _ h => hs.start h f) h
  resume h p d := recorded_follows (fun _ _ h => hs.resume h p d) h

/-! ## The loop and the direct meaning -/

/-- From every state, the loop and the direct meaning of a state program end together: with the same
pair, or with the same error, and in the same world. With a record they also leave the same record,
so that they have made the same requests in the same order. -/
theorem runState_agree_direct {host : Host σ F P} (hs : host.Steady) (m : StateProg F P)
    (s : Datum F P) :
    Agree (fun n => perform host n (.runState [] m s))
      (fun n => m.direct host n s >>= paired) ∧
    Agree (fun n => perform host.recording n (.runState [] m s))
      (fun n => m.direct host.recording n s >>= paired) :=
  ⟨Host.runState_agree hs m s, Host.runState_agree hs.recording m s⟩

/-- Callbacks of a script, nested to the left. The step counts and traces what it counts from; the
binder after it makes a further bind, whose own binder makes no state program. The loop calls them in
the order of the direct meaning, and never the last one. -/
theorem runState_agree_direct_script :
    let count : Script.Closure :=
      .func [] ["k"] (.tuple [.arith .add (.var "k") (.lit (.int 1)), .trace "from" (.var "k")])
    let further : Script.Closure := .cont [] "v" (.bind .get (.lam "s" (.value (.lit .null))))
    let failing : Script.Closure := .cont [("v", .int 5)] "s" (.value (.lit .null))
    let m : StateProg Script.Closure Script.Process :=
      .bind (.bind (.step (.raw (.host count))) (.host further)) (.host count)
    (Script.host 0).Steady ∧
    Settles (fun n => perform (Script.host 0).recording n (.runState [] m (.int 5)))
      ([], []) (.fault (.wrongEffect .binder .state "NoneType"))
      ([("from", .int 5)],
        [.call count [.int 5], .call further [.int 5], .call failing [.int 6]]) := by
  intro count further failing m
  have hs := Script.host_steady 0
  have hdirect : Settles (fun n => m.direct (Script.host 0).recording n (.int 5) >>= paired)
      ([], []) (.fault (.wrongEffect .binder .state "NoneType"))
      ([("from", .int 5)],
        [.call count [.int 5], .call further [.int 5], .call failing [.int 6]]) :=
    ⟨by simp, 4, rfl⟩
  exact ⟨hs, ((runState_agree_direct hs m (.int 5)).2 _ _ _).mpr hdirect⟩

end EffectCalculus
