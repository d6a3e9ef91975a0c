import EffectCalculus.Proofs.Effect.Bounded
import Mathlib.Data.List.Forall2

/-!
# Sequences

A sequence of computations is written with binds that are nested to the left. Their results pile up
in a chain of cells, newest first, and at the end the chain is spooled off. Said plainly, a sequence
does its first computation and then the sequence of the others, and puts the one result in front of
the rest.

* `plainly`, `Host.Recurses`: the plain recursion, and a host whose callbacks make it up;
* `Host.inOrder`: what both come to: one computation after the other, from left to right;
* `Datum.unspool_append`: spooling off a chain puts the newest value last, whatever the values are;
* `Host.proceed_collect`, `Host.proceed_plainly`: both loops, the one with its chain and the other
  without;
* `sequence_agree`: **a sequence is its plain recursion**.
-/

namespace EffectCalculus

open Run Unbounded

variable {σ F P : Type}

/-! ## The plain recursion -/

/-- The list with `x` in front. -/
def Datum.prepend (x : Datum F P) : Datum F P → Except EffectError (Datum F P)
  | .list items => .ok (.list (x :: items))
  | d => .error (.joinsOwnKind "list" d.kind)

/-- The sequence of some computations, by plain recursion; `first others` is the binder that goes on
with the others. -/
def plainly (go : Performer σ F P) (e : Effect) (first : List (Datum F P) → F) :
    List (Datum F P) → Act σ (Datum F P)
  | [] => unitOf e (.list [])
  | m :: others => go (.bind m (.host (first others)))

/-- The binders of the plain recursion: `first others` does the others after the first result, and
`second x` puts the first result `x` in front of theirs. -/
structure Host.Recurses (host : Host σ F P) (e : Effect) (first : List (Datum F P) → F)
    (second : Datum F P → F) : Prop where
  first (go : Performer σ F P) (others : List (Datum F P)) (x : Datum F P) :
    host.call go (first others) [x] = do
      let d ← plainly go e first others
      go (.bind d (.host (second x)))
  second (go : Performer σ F P) (x xs : Datum F P) :
    host.call go (second x) [xs] = do
      let items ← Run.ofExcept (x.prepend xs)
      unitOf e items

theorem plainly_follows (e : Effect) (first : List (Datum F P) → F) (ms : List (Datum F P)) :
    Follows fun go : Performer σ F P => plainly go e first ms := by
  cases ms with
  | nil => exact Follows.const _
  | cons m others => exact Follows.task _

/-! ## Chains of cells -/

theorem Datum.unspool_append (cells : Datum F P) (tail : List (Datum F P)) :
    cells.unspool tail = cells.unspool [] ++ tail := by
  match cells with
  | .tuple [v, rest] =>
    rw [Datum.unspool, Datum.unspool, unspool_append rest (v :: tail), unspool_append rest [v]]
    simp
  | .null | .bool _ | .int _ | .text _ | .list _ | .comp _ | .tuple [] | .tuple [_]
  | .tuple (_ :: _ :: _ :: _) => rfl

/-- A new cell adds its value at the end, whatever it is. -/
theorem Datum.unspool_cell (v cells : Datum F P) :
    (Datum.tuple [v, cells]).unspool [] = cells.unspool [] ++ [v] :=
  Datum.unspool_append cells [v]

/-! ## One after the other -/

/-- The computations one after the other, from left to right, each in the state that the ones before
it have left; then `κ` with their results in order. The first absence or fault ends the matter. -/
noncomputable def Host.inOrder (host : Host σ F P) (e : Effect) :
    List (Datum F P) → Inputs F P →
      (List (Datum F P) → Inputs F P → Unbounded EffectError σ (Datum F P)) →
      Unbounded EffectError σ (Datum F P)
  | [], inputs, κ => κ [] inputs
  | m :: ms, inputs, κ => host.proceed e m inputs fun v inputs =>
    host.inOrder e ms inputs fun vs inputs => κ (v :: vs) inputs

namespace Host

variable {host : Host σ F P} {e : Effect} {Q : Datum F P → Prop} {c m : Datum F P}
  {ms : List (Datum F P)}

theorem exists_shaped {Qs : List (Datum F P → Prop)} (hms : List.Forall₂ (e.Shaped host) Qs ms) :
    ∀ m ∈ ms, ∃ Q, e.Shaped host Q m := by
  induction hms with
  | nil => exact fun m hm => nomatch hm
  | cons hm _ ih => exact List.forall_mem_cons.mpr ⟨⟨_, hm⟩, ih⟩

/-! ## Binders of the loop -/

section Steady

variable (hs : host.Steady)

include hs

theorem does_cons (v cells : Datum F P) :
    host.does (.call .cons [cells, v]) = pure (.tuple [v, cells]) := by
  rw [does_eq hs]
  exact unbounded_const _

theorem does_unspool (cells : Datum F P) :
    host.does (.call .unspool [cells]) = pure (.list (cells.unspool [])) := by
  rw [does_eq hs]
  exact unbounded_const _

theorem does_combineWith_cons (v cells : Datum F P) :
    host.does (.call (.combineWith e .cons cells) [v]) = (unitOf e (.tuple [v, cells])).result := by
  rw [does_combineWith hs, does_cons hs, pure_bind]

theorem does_unitAfter_unspool (cells : Datum F P) :
    host.does (.call (.unitAfter e .unspool) [cells]) =
      (unitOf e (.list (cells.unspool []))).result := by
  rw [does_unitAfter hs, does_unspool hs, pure_bind]

/-! ## The loop -/

theorem combineWith_continues (cells : Datum F P) :
    host.Continues e (fun _ => True) (.combineWith e .cons cells) := by
  refine ⟨rfl, fun v => (yields_iff hs).mpr ?_⟩
  rw [does_combineWith_cons hs]
  exact unit_shaped hs e trivial

theorem combine_continues (hm : e.Shaped host Q m) :
    host.Continues e (fun _ => True) (.combine e .cons m) := by
  refine ⟨rfl, fun cells => (yields_iff hs).mpr ?_⟩
  rw [does_combine hs]
  exact bind_shaped hs e hm (combineWith_continues hs cells)

omit hs in
theorem unbounded_fmap (hc : e.Shaped host Q c) (f : Fn F P) :
    host.unbounded (fun go => fmap go f c) = host.does (.bind c (.unitAfter e f)) := by
  obtain ⟨c, rfl, rfl⟩ := hc.exists_effect
  rfl

/-- One turn of the loop. -/
theorem unbounded_collect_cons (hc : e.Shaped host Q c) :
    host.unbounded (fun go => collect go c (m :: ms)) =
      host.does (.bind c (.combine e .cons m)) >>= fun c =>
        host.unbounded fun go => collect go c ms := by
  obtain ⟨c, rfl, rfl⟩ := hc.exists_effect
  exact unbounded_task_bind hs _ fun c => collect_follows c ms

/-- The loop over the computations: they are done in order, and their cells are put in front of the
chain. -/
theorem proceed_collect (he : e.IsStack) (hc : e.Shaped host Q c)
    (hms : ∀ m ∈ ms, ∃ Q, e.Shaped host Q m) (inputs : Inputs F P)
    (κ : List (Datum F P) → Inputs F P → Unbounded EffectError σ (Datum F P)) :
    (host.unbounded (fun go => collect go c ms) >>= fun c =>
      host.proceed e c inputs fun cells inputs => κ (cells.unspool []) inputs) =
    host.proceed e c inputs fun cells inputs =>
      host.inOrder e ms inputs fun vs inputs => κ (cells.unspool [] ++ vs) inputs := by
  induction ms generalizing Q c with
  | nil =>
    have hnil : host.unbounded (fun go => collect go c []) = pure c := unbounded_const _
    simp only [hnil, pure_bind, inOrder, List.append_nil]
  | cons m ms ih =>
    obtain ⟨_, hm⟩ := hms m List.mem_cons_self
    have hf := combine_continues hs hm
    have hlater := (bind_shaped hs e hc hf).bind_congr fun c hc =>
      ih hc fun m hm => hms m (List.mem_cons_of_mem _ hm)
    rw [unbounded_collect_cons hs hc, bind_assoc, hlater, proceed_bind hs he hc hf]
    refine congrArg _ (funext fun cells => funext fun inputs => ?_)
    have hg : host.Continues e (fun _ => True) (.combineWith e .cons cells) :=
      combineWith_continues hs cells
    rw [called, does_combine hs, proceed_bind hs he hm hg]
    refine congrArg _ (funext fun v => funext fun inputs => ?_)
    rw [called, does_combineWith_cons hs, proceed_unit hs he]
    simp only [Datum.unspool_cell, List.append_assoc, List.singleton_append]

theorem unbounded_sequence (ms : List (Datum F P)) :
    host.unbounded (fun go => sequence go ms (some e)) =
      (unitOf e .null).result >>= fun c => host.unbounded (fun go => collect go c ms) >>= fun c =>
        host.unbounded fun go => fmap go .unspool c := by
  have hspool : ∀ c : Datum F P, Follows fun go : Performer σ F P => fmap go .unspool c :=
    fun c => fmap_follows .unspool c
  refine (unbounded_bind hs (Follows.const (unitOf e .null)) fun c =>
    (collect_follows c ms).bind hspool).trans ?_
  rw [unbounded_const]
  refine congrArg _ (funext fun c => ?_)
  exact unbounded_bind hs (collect_follows c ms) hspool

/-! ## Results -/

/-- The values in the cells have the properties in order. -/
def InCells (Qs : List (Datum F P → Prop)) (cells : Datum F P) : Prop :=
  List.Forall₂ (fun Q v => Q v) Qs (cells.unspool [])

theorem collect_shaped (he : e.IsStack) {Qs Rs : List (Datum F P → Prop)}
    (hc : e.Shaped host (InCells Qs) c) (hms : List.Forall₂ (e.Shaped host) Rs ms) :
    (host.unbounded (fun go => collect go c ms)).Ensures (e.Shaped host (InCells (Qs ++ Rs))) := by
  induction hms generalizing Qs c with
  | nil =>
    have hnil : host.unbounded (fun go => collect go c []) = pure c := unbounded_const _
    rw [hnil, List.append_nil]
    exact Ensures.pure hc
  | @cons Q m Rs ms hm _ ih =>
    rw [unbounded_collect_cons hs hc, List.append_cons]
    have hbind : host.Yields (.bind c (.combine e .cons m))
        (e.Shaped host (InCells (Qs ++ [Q]))) := by
      refine bind_yields hs he hc rfl fun cells hcells => (yields_iff hs).mpr ?_
      rw [does_combine hs, ← yields_iff hs]
      refine bind_yields hs he hm rfl fun v hv => (yields_iff hs).mpr ?_
      rw [does_combineWith_cons hs]
      refine unit_shaped hs e ?_
      rw [InCells, Datum.unspool_cell]
      exact List.rel_append hcells (.cons hv .nil)
    exact ((yields_iff hs).mp hbind).bind fun c hc => ih hc

variable {Qs : List (Datum F P → Prop)}

theorem null_shaped : (unitOf e .null : Act σ (Datum F P)).result.Ensures
    (e.Shaped host (InCells [])) :=
  unit_shaped hs e .nil

theorem sequence_shaped (he : e.IsStack) (hms : List.Forall₂ (e.Shaped host) Qs ms) :
    (host.unbounded fun go => sequence go ms (some e)).Ensures
      (e.Shaped host fun d => ∃ vs, d = .list vs ∧ List.Forall₂ (fun Q v => Q v) Qs vs) := by
  rw [unbounded_sequence hs]
  refine (null_shaped hs).bind fun c hc => (collect_shaped hs he hc hms).bind fun c hc => ?_
  rw [unbounded_fmap hc, ← yields_iff hs]
  refine bind_yields hs he hc rfl fun cells hcells => (yields_iff hs).mpr ?_
  rw [does_unitAfter_unspool hs]
  exact unit_shaped hs e ⟨_, rfl, hcells⟩

/-- A sequence does its computations in order. -/
theorem proceed_sequence (he : e.IsStack) (hms : List.Forall₂ (e.Shaped host) Qs ms)
    (inputs : Inputs F P) (κ : Continuation σ F P) :
    (host.unbounded (fun go => sequence go ms (some e)) >>= fun d =>
      host.proceed e d inputs κ) =
    host.inOrder e ms inputs fun vs inputs => κ (.list vs) inputs := by
  have hloop : ∀ c, e.Shaped host (InCells []) c →
      (host.unbounded (fun go => collect go c ms) >>= fun c =>
        host.unbounded (fun go => fmap go .unspool c) >>= fun d => host.proceed e d inputs κ) =
      host.proceed e c inputs fun cells inputs =>
        host.inOrder e ms inputs fun vs inputs => κ (.list (cells.unspool [] ++ vs)) inputs := by
    intro c hc
    rw [← proceed_collect hs he hc (exists_shaped hms) inputs fun vs inputs => κ (.list vs) inputs]
    refine (collect_shaped hs he hc hms).bind_congr fun c hc => ?_
    rw [unbounded_fmap hc, proceed_bind hs he hc (unitAfter_continues hs .unspool)]
    refine congrArg _ (funext fun cells => funext fun inputs => ?_)
    rw [called, does_unitAfter_unspool hs, proceed_unit hs he]
  rw [unbounded_sequence hs, bind_assoc]
  simp only [bind_assoc]
  rw [(null_shaped hs).bind_congr hloop, proceed_unit hs he]
  rfl

/-! ## The plain recursion -/

section Recurses

variable {first : List (Datum F P) → F} {second : Datum F P → F} (hr : host.Recurses e first second)

include hr

theorem does_first (others : List (Datum F P)) (x : Datum F P) :
    host.does (.call (.host (first others)) [x]) =
      host.unbounded (fun go => plainly go e first others) >>= fun d =>
        host.does (.bind d (.host (second x))) := by
  rw [does_eq hs]
  simp only [Task.attempt, Fn.callWith, hr.first]
  exact unbounded_bind hs (plainly_follows e first others) fun d => Follows.task _

theorem does_second (x xs : Datum F P) :
    host.does (.call (.host (second x)) [xs]) =
      (Run.ofExcept (x.prepend xs) >>= unitOf e : Act σ (Datum F P)).result := by
  rw [does_eq hs]
  simp only [Task.attempt, Fn.callWith, hr.second]
  exact unbounded_const _

theorem second_continues (x : Datum F P) :
    host.Continues e (fun _ => True) (.host (second x)) := by
  refine ⟨rfl, fun xs => (yields_iff hs).mpr ?_⟩
  rw [does_second hs hr]
  cases x.prepend xs with
  | ok items => exact unit_shaped hs e trivial
  | error err => exact Ensures.fault err

theorem first_continues {others : List (Datum F P)}
    (h : (host.unbounded fun go => plainly go e first others).Ensures
      (e.Shaped host fun _ => True)) :
    host.Continues e (fun _ => True) (.host (first others)) := by
  refine ⟨rfl, fun x => (yields_iff hs).mpr ?_⟩
  rw [does_first hs hr]
  exact h.bind fun d hd => bind_shaped hs e hd (second_continues hs hr x)

theorem plainly_shaped (hms : ∀ m ∈ ms, ∃ Q, e.Shaped host Q m) :
    (host.unbounded fun go => plainly go e first ms).Ensures (e.Shaped host fun _ => True) := by
  induction ms with
  | nil =>
    have hnil : host.unbounded (fun go => plainly go e first []) = (unitOf e (.list [])).result :=
      unbounded_const _
    rw [hnil]
    exact unit_shaped hs e trivial
  | cons m others ih =>
    obtain ⟨⟨Q, hm⟩, hothers⟩ := List.forall_mem_cons.mp hms
    exact bind_shaped hs e hm (first_continues hs hr (ih hothers))

/-- The plain recursion does its computations in order. -/
theorem proceed_plainly (he : e.IsStack) (hms : ∀ m ∈ ms, ∃ Q, e.Shaped host Q m)
    (inputs : Inputs F P) (κ : Continuation σ F P) :
    (host.unbounded (fun go => plainly go e first ms) >>= fun d => host.proceed e d inputs κ) =
    host.inOrder e ms inputs fun vs inputs => κ (.list vs) inputs := by
  induction ms generalizing inputs κ with
  | nil =>
    have hnil : host.unbounded (fun go => plainly go e first []) = (unitOf e (.list [])).result :=
      unbounded_const _
    rw [hnil, proceed_unit hs he]
    rfl
  | cons m others ih =>
    obtain ⟨⟨Q, hm⟩, hothers⟩ := List.forall_mem_cons.mp hms
    have hshaped := plainly_shaped hs hr hothers
    refine (proceed_bind hs he hm (first_continues hs hr hshaped) inputs κ).trans ?_
    refine congrArg _ (funext fun x => funext fun inputs => ?_)
    rw [called, does_first hs hr, bind_assoc]
    refine (hshaped.bind_congr fun d hd =>
      proceed_bind hs he hd (second_continues hs hr x) inputs κ).trans ?_
    rw [ih hothers]
    refine congrArg _ (funext fun vs => funext fun inputs => ?_)
    rw [called, does_second hs hr]
    exact proceed_unit hs he (.list (x :: vs)) inputs κ

end Recurses

end Steady

end Host

/-! ## Sequences and their plain recursion -/

/-- Without an effect, a sequence takes that of its first computation. -/
theorem sequence_none {host : Host σ F P} {e : Effect} {Qs : List (Datum F P → Prop)}
    {ms : List (Datum F P)} (hms : List.Forall₂ (e.Shaped host) Qs ms) (hne : ms ≠ [])
    (go : Performer σ F P) : sequence go ms none = sequence go ms (some e) := by
  cases hms with
  | nil => exact absurd rfl hne
  | cons hm _ =>
    obtain ⟨c, rfl, rfl⟩ := hm.exists_effect
    rfl

/-- **A sequence is its plain recursion.** Built and run completely, with any environments and
states, both end together, with the same final datum or the same error, and in the same world. Its
results are lists of results of the computations, in order, and its run is theirs, from left to
right: the first absence or fault ends it. -/
theorem sequence_agree {host : Host σ F P} (hs : host.Steady) {e : Effect} (he : e.IsStack)
    {first : List (Datum F P) → F} {second : Datum F P → F} (hr : host.Recurses e first second)
    {Qs : List (Datum F P → Prop)} {ms : List (Datum F P)}
    (hms : List.Forall₂ (e.Shaped host) Qs ms) (inputs : Inputs F P) :
    Agree (host.completes e inputs fun go => sequence go ms (some e))
      (host.completes e inputs fun go => plainly go e first ms) ∧
    (ms ≠ [] → Agree (host.completes e inputs fun go => sequence go ms none)
      (host.completes e inputs fun go => plainly go e first ms)) ∧
    (∀ w d w', Settles (fun n => sequence (perform host n) ms (some e)) w (.done d) w' →
      e.Shaped host (fun r => ∃ vs, r = .list vs ∧ List.Forall₂ (fun Q v => Q v) Qs vs) d) ∧
    unbounded (host.completes e inputs fun go => sequence go ms (some e)) =
      host.inOrder e ms inputs fun vs inputs => pure (e.seal (.list vs) inputs) := by
  have hshaped := Host.sequence_shaped hs he hms
  have hfollows : Follows fun go : Performer σ F P => sequence go ms (some e) :=
    sequence_follows (some e) ms
  have hagree : Agree (host.completes e inputs fun go => sequence go ms (some e))
      (host.completes e inputs fun go => plainly go e first ms) := by
    refine Host.completes_agree hs hfollows (plainly_follows e first ms) hshaped
      (Host.plainly_shaped hs hr (Host.exists_shaped hms)) inputs fun κ => ?_
    rw [Host.proceed_sequence hs he hms,
      Host.proceed_plainly hs hr he (Host.exists_shaped hms)]
  refine ⟨hagree, fun hne => ?_, fun w d w' hd => ?_, ?_⟩
  · simp only [sequence_none hms hne]
    exact hagree
  · exact hshaped w d w' ((settles_done (hs.rising hfollows)).mp hd)
  · rw [Host.unbounded_completes hs hfollows hshaped inputs]
    exact Host.proceed_sequence hs he hms inputs _

/-! ## A sample host -/

/-- The binders of the plain recursion, and a callback that raises an error. -/
inductive Chore
  | first (others : List (Datum Chore Empty))
  | second (x : Datum Chore Empty)
  | alarm

/-- State over absence. -/
abbrev choreEffect : Effect := .transformer .state (.onto .bare .maybe)

def chores : Host Unit Chore Empty where
  call go f args :=
    match f, args with
    | .first others, [x] => do
      let d ← plainly go choreEffect .first others
      go (.bind d (.host (.second x)))
    | .second x, [xs] => do
      let items ← Run.ofExcept (x.prepend xs)
      unitOf choreEffect items
    | _, _ => Run.fault (.raised "alarm")
  start _ _ := Run.fault (.raised "alarm")
  resume _ p _ := nomatch p

theorem chores_steady : chores.Steady where
  call h f args := by
    dsimp only [chores]
    split
    case h_1 => exact (plainly_follows choreEffect .first _ h).bind fun d => h _
    all_goals exact Below.refl _
  start _ _ := Below.refl _
  resume _ p := nomatch p

theorem chores_recurses : chores.Recurses choreEffect .first .second where
  first _ _ _ := rfl
  second _ _ _ := rfl

/-- A state program of the sample host. -/
abbrev chore (m : StateTProg Chore Empty) : Datum Chore Empty :=
  .comp (.stateT (.onto .bare .maybe) m)

/-- Null and pairs among the results are kept, and nothing is done after an absence. -/
theorem sequence_agree_chores :
    let pair : Datum Chore Empty := .tuple [.int 1, .null]
    let ms := [chore .get, chore (.put pair), chore .get, chore (.pure .null)]
    let cut := [chore (.put pair), chore (.lift (.comp .nothing)), chore (.raw (.host .alarm))]
    let inputs : Inputs Chore Empty := (Stream'.const .null).cons (.int 7)
    chores.Steady ∧ choreEffect.IsStack ∧ chores.Recurses choreEffect .first .second ∧
    List.Forall₂ (choreEffect.Shaped chores) (List.replicate 4 fun _ => True) ms ∧
    List.Forall₂ (choreEffect.Shaped chores) (List.replicate 3 fun _ => True) cut ∧
    Settles (chores.completes choreEffect inputs fun go => sequence go ms none) ()
      (.done (.comp (.some (.tuple [pair, .list [.int 7, .null, pair, .null]])))) () ∧
    Settles (chores.completes choreEffect inputs fun go => sequence go cut (some choreEffect)) ()
      (.done (.comp .nothing)) () := by
  intro pair ms cut inputs
  have hs := chores_steady
  have he : choreEffect.IsStack := .layered _ _ .maybe
  have hget : choreEffect.Shaped chores (fun _ => True) (chore .get) :=
    Host.shaped_stateT hs fun n s => Keeps.pure (.inr ⟨_, rfl, s, s, rfl, trivial⟩)
  have hput : choreEffect.Shaped chores (fun _ => True) (chore (.put pair)) :=
    Host.shaped_stateT hs fun n s => Keeps.pure (.inr ⟨_, rfl, pair, .null, rfl, trivial⟩)
  have hpure : choreEffect.Shaped chores (fun _ => True) (chore (.pure .null)) :=
    Host.shaped_stateT hs fun n s => Keeps.pure (.inr ⟨_, rfl, s, .null, rfl, trivial⟩)
  have hlift : choreEffect.Shaped chores (fun _ => True) (chore (.lift (.comp .nothing))) :=
    Host.shaped_stateT hs fun n s => Host.perform_keeps fun k _ => Keeps.pure (.inl rfl)
  have hraw : choreEffect.Shaped chores (fun _ => True) (chore (.raw (.host .alarm))) :=
    Host.shaped_stateT hs fun n s => Host.perform_keeps fun k _ => Keeps.fault trivial
  have hms : List.Forall₂ (choreEffect.Shaped chores) (List.replicate 4 fun _ => True) ms :=
    .cons hget (.cons hput (.cons hget (.cons hpure .nil)))
  have hcut : List.Forall₂ (choreEffect.Shaped chores) (List.replicate 3 fun _ => True) cut :=
    .cons hput (.cons hlift (.cons hraw .nil))
  refine ⟨hs, he, chores_recurses, hms, hcut, ?_, ?_⟩
  · obtain ⟨-, hagree, -⟩ := sequence_agree hs he chores_recurses hms inputs
    exact (hagree (by simp [ms]) _ _ _).mpr ⟨by simp, 20, rfl⟩
  · obtain ⟨hagree, -⟩ := sequence_agree hs he chores_recurses hcut inputs
    exact (hagree _ _ _).mpr ⟨by simp, 20, rfl⟩

end EffectCalculus
