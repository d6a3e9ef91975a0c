import EffectCalculus.Proofs.Effect.Compose
import EffectCalculus.Proofs.Effect.Sequence
import Mathlib.Logic.Function.Iterate

/-!
# What a state program does to a state

Many state programs run through from a given state: they end in a state and with a result that can
be said beforehand. Here is a rule for each way to make such a program.

* `Host.Carries`: a state program takes a state to another and gives a result; it is put together
  by `Host.Carries.bind`;
* `Host.Finishes`: the same for a body from where it stands, with one rule for its result and one
  for what it yields; `Host.Finishes.block` closes the block around it;
* `Host.Builds`, `Host.forEach_builds`: an action makes such a program; **a loop over callbacks
  takes the state through their programs**, one after the other.
-/

namespace EffectCalculus

open Run Unbounded

variable {σ F P : Type} {host : Host σ F P}

namespace Host

/-- From the state `s`, the program ends in the state `s'` with the result `v`. -/
def Carries (host : Host σ F P) (m : StateProg F P) (s s' v : Datum F P) : Prop :=
  host.passes m s = pure (s', v)

/-- The action makes such a program. -/
def Builds (host : Host σ F P) (build : Performer σ F P → Act σ (Datum F P))
    (s s' v : Datum F P) : Prop :=
  ∃ m, host.unbounded build = pure (.comp (.state m)) ∧ host.Carries m s s' v

/-- The body at `p` that is given `x` goes on as such a program. -/
def Finishes (host : Host σ F P) (p : P) (x s s' v : Datum F P) : Prop :=
  ∃ m, host.does (.call (.resume .state p) [x]) = pure (.comp (.state m)) ∧ host.Carries m s s' v

/-- An action that hands out no tasks. -/
theorem unbounded_of_pure {α : Type} {f : Performer σ F P → Act σ α} {a : α}
    (h : ∀ go, f go = pure a) : host.unbounded f = pure a := by
  rw [funext h]
  exact unbounded_const _

variable (hs : host.Steady)

include hs

/-! ## Single steps -/

theorem carries_pure (v s : Datum F P) : host.Carries (.step (.pure v)) s s v :=
  passes_pure hs v s

theorem carries_get (s : Datum F P) : host.Carries (.step .get) s s s := by
  rw [Carries, passes_step hs]
  exact unbounded_of_pure fun _ => rfl

theorem carries_put (v s : Datum F P) : host.Carries (.step (.put v)) s v .null := by
  rw [Carries, passes_step hs]
  exact unbounded_of_pure fun _ => rfl

/-- The binder is called with the result, and the program that it makes goes on from the state. -/
theorem Carries.bind {m m' : StateProg F P} {f : Fn F P} {s s₁ s' v v' : Datum F P}
    (hm : host.Carries m s s₁ v) (hf : host.does (.call f [v]) = pure (.comp (.state m')))
    (hm' : host.Carries m' s₁ s' v') : host.Carries (.bind m f) s s' v' := by
  rw [Carries, passes_bind hs, hm, pure_bind, binds, hf, pure_bind]
  exact hm'

/-! ## Blocks -/

theorem does_resume_state (p : P) (x : Datum F P) :
    host.does (.call (.resume .state p) [x]) =
      host.unbounded (fun go => host.resume go p x) >>= fun progress =>
        host.unbounded fun go => progress.enter go .state := by
  rw [does_eq hs]
  exact unbounded_bind hs (resume_follows hs p x) (Progress.enter_follows .state)

theorem Finishes.returned {p : P} {x v : Datum F P}
    (h : host.unbounded (fun go => host.resume go p x) = pure (.returned v)) (s : Datum F P) :
    host.Finishes p x s s v := by
  refine ⟨.step (.pure v), ?_, carries_pure hs v s⟩
  rw [does_resume_state hs, h, pure_bind]
  exact unbounded_const _

/-- What is yielded runs first, and its result is given to the rest. -/
theorem Finishes.yielded {p q : P} {x y s s₁ s' v : Datum F P} {m : StateProg F P}
    (h : host.unbounded (fun go => host.resume go p x) = pure (.yielded (.comp (.state m)) q))
    (hm : host.Carries m s s₁ y) (hq : host.Finishes q y s₁ s' v) : host.Finishes p x s s' v := by
  obtain ⟨rest, hrest, hcarries⟩ := hq
  refine ⟨.bind m (.resume .state q), ?_, hm.bind hs hrest hcarries⟩
  rw [does_resume_state hs, h, pure_bind]
  exact does_bind_state hs m rfl

/-- The same, for a program that is made on the spot. -/
theorem Finishes.built {p q : P} {x y s s₁ s' v : Datum F P}
    {build : Performer σ F P → Act σ (Datum F P)} (hbuild : Follows build)
    (h : ∀ go, host.resume go p x = build go >>= fun d => pure (.yielded d q))
    (hb : host.Builds build s s₁ y) (hq : host.Finishes q y s₁ s' v) :
    host.Finishes p x s s' v := by
  obtain ⟨m, hm, hcarries⟩ := hb
  have hyield : ∀ d, Follows fun _ : Performer σ F P =>
      (pure (.yielded d q) : Act σ (Progress F P)) :=
    fun d => Follows.const (pure (Progress.yielded d q))
  refine Finishes.yielded hs ?_ hcarries hq
  simp only [h]
  rw [unbounded_bind hs hbuild hyield, hm, pure_bind]
  exact unbounded_const _

theorem unbounded_block_state {f : Fn F P} (hf : f.callable = true) :
    host.unbounded (fun go => block go .state f) =
      pure (.comp (.state (.bind (.step (.pure .null)) f))) := by
  rw [unbounded_block hs]
  exact (pure_bind _ _).trans (does_bind_state hs _ hf)

/-- A block opens its body and runs it. -/
theorem Finishes.block {body : F} {p : P} {s s' v : Datum F P}
    (hstart : host.unbounded (fun go => host.start go body) = pure p)
    (h : host.Finishes p .null s s' v) :
    host.Carries (.bind (.step (.pure .null)) (.start .state body)) s s' v := by
  obtain ⟨m, hm, hcarries⟩ := h
  refine (carries_pure hs .null s).bind hs ?_ hcarries
  rw [does_start hs, hstart, pure_bind, hm]

/-! ## Loops -/

/-- An action that makes a program, and then one that makes another of it. -/
theorem Builds.bind {build : Performer σ F P → Act σ (Datum F P)}
    {next : Performer σ F P → Datum F P → Act σ (Datum F P)} {s s₁ s' v w : Datum F P}
    (hb : host.Builds build s s₁ v) (hbuild : Follows build)
    (hnext : ∀ d, Follows fun go => next go d)
    (h : ∀ m, host.Carries m s s₁ v →
      host.Builds (fun go => next go (.comp (.state m))) s s' w) :
    host.Builds (fun go => build go >>= next go) s s' w := by
  obtain ⟨m, hm, hcarries⟩ := hb
  obtain ⟨m', hm', hcarries'⟩ := h m hcarries
  refine ⟨m', ?_, hcarries'⟩
  rw [unbounded_bind hs hbuild hnext, hm, pure_bind, hm']

theorem fmap_builds {f : Fn F P} {m : StateProg F P} {s s' v w : Datum F P}
    (hm : host.Carries m s s' v) (hf : host.does (.call f [v]) = pure w) :
    host.Builds (fun go => fmap go f (.comp (.state m))) s s' w := by
  refine ⟨.bind m (.unitAfter .state f), does_bind_state hs m rfl,
    hm.bind hs ?_ (carries_pure hs w s')⟩
  rw [does_unitAfter hs, hf, pure_bind]
  rfl

/-- The second program runs after the first, and its result is put in front of the first one's. -/
theorem fmap2_cons_builds {m m' : StateProg F P} {s s₁ s' cells v : Datum F P}
    (hm : host.Carries m s s₁ cells) (hm' : host.Carries m' s₁ s' v) :
    host.Builds (fun go => fmap2 go .cons (.comp (.state m)) (.comp (.state m'))) s s'
      (.tuple [v, cells]) := by
  have hcell : host.does (.call (.combineWith .state .cons cells) [v]) =
      pure (.comp (.state (.step (.pure (.tuple [v, cells]))))) := by
    rw [does_combineWith_cons hs]
    rfl
  refine ⟨.bind m (.combine .state .cons (.comp (.state m'))), does_bind_state hs m rfl,
    hm.bind hs ?_ (hm'.bind hs hcell (carries_pure hs _ s'))⟩
  rw [does_combine hs]
  exact does_bind_state hs m' rfl

omit hs in
/-- Several programs take a state through, one after the other, with the results `vs`. -/
inductive Threads (host : Host σ F P) :
    List (StateProg F P) → Datum F P → Datum F P → List (Datum F P) → Prop
  | nil (s : Datum F P) : Threads host [] s s []
  | cons {m : StateProg F P} {ms : List (StateProg F P)} {s s₁ s' v : Datum F P}
    {vs : List (Datum F P)} : host.Carries m s s₁ v → Threads host ms s₁ s' vs →
    Threads host (m :: ms) s s' (v :: vs)

omit hs in
/-- Several values in front of a chain of cells, the last one in front of all. -/
def pile (cells : Datum F P) (vs : List (Datum F P)) : Datum F P :=
  vs.foldl (fun cells v => .tuple [v, cells]) cells

omit hs in
theorem unspool_pile (cells : Datum F P) (vs : List (Datum F P)) :
    (pile cells vs).unspool [] = cells.unspool [] ++ vs := by
  induction vs generalizing cells with
  | nil => simp [pile]
  | cons v vs ih =>
    refine (ih (.tuple [v, cells])).trans ?_
    rw [Datum.unspool_cell, List.append_assoc, List.singleton_append]

theorem collect_builds {ms : List (StateProg F P)} {c : StateProg F P} {s s₁ s' cells : Datum F P}
    {vs : List (Datum F P)} (hc : host.Carries c s s₁ cells) (hms : host.Threads ms s₁ s' vs) :
    host.Builds (fun go => collect go (.comp (.state c)) (ms.map fun m => .comp (.state m))) s s'
      (pile cells vs) := by
  induction hms generalizing c cells with
  | nil s₁ => exact ⟨c, unbounded_const _, hc⟩
  | cons hm _ ih =>
    exact (fmap2_cons_builds hs hc hm).bind hs (fmap2_follows _ _ _)
      (fun d => collect_follows d _) fun c hc => ih hc

theorem sequence_builds {ms : List (StateProg F P)} {s s' : Datum F P} {vs : List (Datum F P)}
    (hms : host.Threads ms s s' vs) :
    host.Builds (fun go => sequence go (ms.map fun m => .comp (.state m)) (some .state)) s s'
      (.list vs) := by
  have hcells := collect_builds hs (carries_pure hs .null s) hms
  have hspool : host.does (.call .unspool [pile .null vs]) = pure (.list vs) := by
    rw [does_unspool hs, unspool_pile]
    rfl
  exact hcells.bind hs (collect_follows _ _) (fun d => fmap_follows _ d) fun c hc =>
    fmap_builds hs hc hspool

theorem unbounded_callEach {f : Fn F P} {items : List (Datum F P)} {ms : List (StateProg F P)}
    (h : List.Forall₂ (fun x m => host.does (.call f [x]) = pure (.comp (.state m))) items ms) :
    host.unbounded (fun go => callEach go f items) =
      pure (ms.map fun m => .comp (.state m)) := by
  induction h with
  | nil => exact unbounded_const _
  | @cons x m items ms hx _ ih =>
    have hitems := callEach_follows (σ := σ) f items
    have hcons : ∀ (y : Datum F P) (ys : List (Datum F P)),
        Follows fun _ : Performer σ F P => (pure (y :: ys) : Act σ (List (Datum F P))) :=
      fun y ys => Follows.const (pure (y :: ys))
    refine (unbounded_task_bind hs (.call f [x]) fun y => hitems.bind (hcons y)).trans ?_
    rw [hx, pure_bind, unbounded_bind hs hitems (hcons _), ih, pure_bind]
    exact unbounded_const _

theorem does_discard (args : List (Datum F P)) : host.does (.call .discard args) = pure .null := by
  rw [does_eq hs]
  exact unbounded_const _

/-- **A loop takes the state through the programs that its callback makes.** -/
theorem forEach_builds {f : Fn F P} {items : List (Datum F P)} {ms : List (StateProg F P)}
    {s s' : Datum F P} {vs : List (Datum F P)}
    (hcalls : List.Forall₂ (fun x m => host.does (.call f [x]) = pure (.comp (.state m))) items ms)
    (hms : host.Threads ms s s' vs) :
    host.Builds (fun go => forEach go items f (some .state)) s s' .null := by
  have htraverse : host.Builds (fun go => traverse go f items (some .state)) s s' (.list vs) := by
    obtain ⟨m, hm, hcarries⟩ := sequence_builds hs hms
    refine ⟨m, ?_, hcarries⟩
    refine (unbounded_bind hs (callEach_follows f items) fun ds => sequence_follows _ ds).trans ?_
    rw [unbounded_callEach hs hcalls, pure_bind, hm]
  exact htraverse.bind hs (traverse_follows _ _ _) (fun d => fmap_follows _ d) fun m hm =>
    fmap_builds hs hm (does_discard hs _)

/-- A loop whose callback makes the same program every time, which does `next` to the state. -/
theorem forEach_builds_iterate {α : Type} {f : Fn F P} {m : StateProg F P} {v : Datum F P}
    (hcall : ∀ x, host.does (.call f [x]) = pure (.comp (.state m))) {state : α → Datum F P}
    {next : α → α} (hm : ∀ a, host.Carries m (state a) (state (next a)) v)
    (items : List (Datum F P)) (a : α) :
    host.Builds (fun go => forEach go items f (some .state)) (state a)
      (state (next^[items.length] a)) .null := by
  have hcalls : ∀ items : List (Datum F P),
      List.Forall₂ (fun x m => host.does (.call f [x]) = pure (.comp (.state m))) items
        (List.replicate items.length m) := by
    intro items
    induction items with
    | nil => exact .nil
    | cons x items ih => exact .cons (hcall x) ih
  have hthreads : ∀ (n : Nat) (a : α),
      host.Threads (List.replicate n m) (state a) (state (next^[n] a)) (List.replicate n v) := by
    intro n
    induction n with
    | zero => exact fun a => .nil _
    | succ n ih => exact fun a => .cons (hm a) (ih (next a))
  exact forEach_builds hs (hcalls items) (hthreads items.length a)

end Host

end EffectCalculus
