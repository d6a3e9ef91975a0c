import EffectCalculus.Proofs.Effect.Bounded
import EffectCalculus.Proofs.Script.Steady

/-!
# Well-typed programs

The effects check at run time what they are given: a binder must give a computation of the right
effect, a state program a pair, and so on. A program that is put together by the operations of one
effect, whose binders do the same and whose callbacks raise no errors, never fails such a check.

* `Signature`: what the callbacks and bodies of a host are for, given the computations that they
  hold (`Known`);
* `Program`: the programs of an effect, by the operations that they are built with;
* `Host.Meets`: the host keeps to its signature: its binders build programs, its bodies yield them;
* `Host.SoundAt`, `Host.soundAt`: **binders and bodies have the right shape within every bound**, by
  induction on the bound, and within it on how deep the binders are called;
* `Program.fits`: so programs build computations of the right shape;
* `programs_never_fault`: **no fault at all**, whatever the environments and states are.
-/

namespace EffectCalculus

open Run

variable {σ F P : Type}

/-! ## Programs -/

/-- The computations that have been built already, with their effects. -/
abbrev Known (F P : Type) := Effect → Datum F P → Prop

namespace Known

def none : Known F P := fun _ _ => False

/-- One computation more. -/
def extend (K : Known F P) (e : Effect) (d : Datum F P) : Known F P :=
  fun e' d' => K e' d' ∨ e' = e ∧ d' = d

end Known

/-- What the callbacks and bodies of a host are for. Binders and bodies may hold computations that
have been built already. -/
structure Signature (F P : Type) where
  /-- A function of so many data. -/
  function : F → Nat → Prop
  /-- A function from a datum to a program of the effect. -/
  binder : Known F P → F → Effect → Prop
  /-- The body of a block of the effect. -/
  body : Known F P → F → Effect → Prop
  /-- A place in such a body. -/
  place : Known F P → P → Effect → Prop

/-- Actions that build a computation. -/
abbrev Recipe (σ F P : Type) := Performer σ F P → Act σ (Datum F P)

/-- A computation, or the error instead of it. -/
def offer (c : Except EffectError (Comp F P)) : Act σ (Datum F P) := do
  let c ← Run.ofExcept c
  return .comp c

/-- The action never ends with a fault. -/
def Host.Faultless {α : Type} (host : Host σ F P) (act : Performer σ F P → Act σ α) : Prop :=
  ∀ n w err, (act (perform host n) w).1 ≠ .fault err

/-- The effects whose programs can be run in a changed environment. -/
def Effect.reads : Effect → Bool
  | .reader | .transformer .reader _ => true
  | _ => false

/-- The effect in which a list is sequenced may be left out unless the list is empty. -/
def Effect.Chosen {α : Type} (e : Effect) (items : List α) (given : Option Effect) : Prop :=
  given = some e ∨ given = none ∧ items ≠ []

theorem Effect.Chosen.of_length {α β : Type} {e : Effect} {items : List α} {items' : List β}
    {given : Option Effect} (h : e.Chosen items given) (hlength : items'.length = items.length) :
    e.Chosen items' given := by
  refine h.imp_right fun ⟨hgiven, hne⟩ => ⟨hgiven, fun hnil => hne ?_⟩
  rw [← List.length_eq_zero_iff, ← hlength, hnil, List.length_nil]

/-- The units of an effect, and the operations of its own that take no other computation. -/
inductive Primitive (sig : Signature F P) : Effect → Except EffectError (Comp F P) → Prop
  | unit (e : Effect) (v : Datum F P) : Primitive sig e (e.unit v)
  | nothing : Primitive sig .maybe (.ok .nothing)
  | ask : Primitive sig .reader (.ok (.reader .ask))
  | asks {f : F} (hf : sig.function f 1) : Primitive sig .reader (.ok (.reader (.asks (.host f))))
  | get : Primitive sig .state (.ok (.state (.step .get)))
  | gets {f : F} (hf : sig.function f 1) :
    Primitive sig .state (.ok (.state (.step (.gets (.host f)))))
  | put (v : Datum F P) : Primitive sig .state (.ok (.state (.step (.put v))))
  | modify {f : F} (hf : sig.function f 1) :
    Primitive sig .state (.ok (.state (.step (.modify (.host f)))))
  | askT (bases : Bases) : Primitive sig (.transformer .reader bases)
    (Effect.ask (.transformer .reader bases))
  | getT (bases : Bases) : Primitive sig (.transformer .state bases)
    (Effect.get (.transformer .state bases))
  | putT (bases : Bases) (v : Datum F P) : Primitive sig (.transformer .state bases)
    (Effect.put (.transformer .state bases) v)
  | absentT (bases : Bases) : Primitive sig (.transformer .maybe bases)
    (Effect.absent (.transformer .maybe bases))

/-- The programs of an effect: actions that build a computation by the operations of the effect. -/
inductive Program (host : Host σ F P) (sig : Signature F P) :
    Known F P → Effect → Recipe σ F P → Prop
  | primitive {K : Known F P} {e : Effect} {c : Except EffectError (Comp F P)}
      (hc : Primitive sig e c) :
    Program host sig K e fun _ => offer c
  /-- Something else is done first; it may decide which program is built. -/
  | after {K : Known F P} {e : Effect} {α : Type} {act : Performer σ F P → Act σ α}
      {m : α → Recipe σ F P} (hact : host.Faultless act)
      (hm : ∀ x, Program host sig K e (m x)) :
    Program host sig K e fun go => do
      let x ← act go
      m x go
  /-- A computation is built, and known from then on. -/
  | share {K : Known F P} {e e' : Effect} {m : Recipe σ F P} {next : Datum F P → Recipe σ F P}
      (he : e.IsStack) (hm : Program host sig K e m)
      (hnext : ∀ d, Program host sig (K.extend e d) e' (next d)) :
    Program host sig K e' fun go => do
      let d ← m go
      next d go
  | known {K : Known F P} {e : Effect} {d : Datum F P} (hd : K e d) :
    Program host sig K e fun _ => return d
  | within {K : Known F P} {e : Effect} {m : Recipe σ F P} {f : F} (he : e.reads = true)
      (hf : sig.function f 1) (hm : Program host sig K e m) :
    Program host sig K e fun go => do
      let c ← (← m go).asComp "local"
      offer (c.within (.host f))
  | lift {K : Known F P} (layer : Layer) (inner : Bases) {base : Effect} {m : Recipe σ F P}
      (hm : Program host sig K base m) :
    Program host sig K (.transformer layer (.onto inner base)) fun go => do
      let d ← m go
      Effect.lift go (.transformer layer (.onto inner base)) d
  | bind {K : Known F P} {e : Effect} {m : Recipe σ F P} {f : F}
      (hm : Program host sig K e m) (hf : sig.binder K f e) :
    Program host sig K e fun go => do
      let d ← m go
      go (.bind d (.host f))
  | map {K : Known F P} {e : Effect} {m : Recipe σ F P} {f : F}
      (hm : Program host sig K e m) (hf : sig.function f 1) :
    Program host sig K e fun go => do
      let d ← m go
      go (.map d (.host f))
  | andThen {K : Known F P} {e : Effect} {m next : Recipe σ F P}
      (hm : Program host sig K e m) (hnext : Program host sig K e next) :
    Program host sig K e fun go => do
      let d ← m go
      let d' ← next go
      go (.bind d (.const d'))
  | fmap {K : Known F P} {e : Effect} {m : Recipe σ F P} {f : F} (hf : sig.function f 1)
      (hm : Program host sig K e m) :
    Program host sig K e fun go => do
      let d ← m go
      fmap go (.host f) d
  | fmap2 {K : Known F P} {e : Effect} {m m' : Recipe σ F P} {f : F}
      (hf : sig.function f 2) (hm : Program host sig K e m) (hm' : Program host sig K e m') :
    Program host sig K e fun go => do
      let d ← m go
      let d' ← m' go
      fmap2 go (.host f) d d'
  | sequence {K : Known F P} {e : Effect} {ms : List (Recipe σ F P)} {given : Option Effect}
      (hms : ∀ m ∈ ms, Program host sig K e m) (hgiven : e.Chosen ms given) :
    Program host sig K e fun go => do
      let ds ← ms.mapM fun m => m go
      sequence go ds given
  | traverse {K : Known F P} {e : Effect} {f : F} {items : List (Datum F P)}
      {given : Option Effect} (hf : sig.binder K f e) (hgiven : e.Chosen items given) :
    Program host sig K e fun go => traverse go (.host f) items given
  | forEach {K : Known F P} {e : Effect} {f : F} {items : List (Datum F P)}
      {given : Option Effect} (hf : sig.binder K f e) (hgiven : e.Chosen items given) :
    Program host sig K e fun go => forEach go items (.host f) given
  | replicate {K : Known F P} {e : Effect} {m : Recipe σ F P} {n : Int} (hn : 0 ≤ n)
      (hm : Program host sig K e m) :
    Program host sig K e fun go => do
      let d ← m go
      replicate go n d
  | block {K : Known F P} {e : Effect} {f : F} (hf : sig.body K f e) :
    Program host sig K e fun go => block go e (.start e f)
  /-- The body of this block is a plain function, which yields nothing. -/
  | plainBlock {K : Known F P} {e : Effect} {f : F} (hf : sig.function f 0) :
    Program host sig K e fun go => block go e (.startPlain e (.host f))

/-- What the body of a block does up to the next yield: it yields a program of the effect, or it
returns. -/
inductive Passage (host : Host σ F P) (sig : Signature F P) (e : Effect) :
    Known F P → (Performer σ F P → Act σ (Progress F P)) → Prop
  | returned {K : Known F P} (v : Datum F P) : Passage host sig e K fun _ => return .returned v
  | yielded {K : Known F P} {m : Recipe σ F P} {rest : P} (hm : Program host sig K e m)
      (hrest : sig.place K rest e) :
    Passage host sig e K fun go => do
      let d ← m go
      return .yielded d rest
  | after {K : Known F P} {α : Type} {act : Performer σ F P → Act σ α}
      {passage : α → Performer σ F P → Act σ (Progress F P)} (hact : host.Faultless act)
      (h : ∀ x, Passage host sig e K (passage x)) :
    Passage host sig e K fun go => do
      let x ← act go
      passage x go
  | share {K : Known F P} {e' : Effect} {m : Recipe σ F P}
      {passage : Datum F P → Performer σ F P → Act σ (Progress F P)} (he : e'.IsStack)
      (hm : Program host sig K e' m) (h : ∀ d, Passage host sig e (K.extend e' d) (passage d)) :
    Passage host sig e K fun go => do
      let d ← m go
      passage d go

/-- The host keeps to the signature. -/
structure Host.Meets (host : Host σ F P) (sig : Signature F P) : Prop where
  function {f : F} (args : List (Datum F P)) (h : sig.function f args.length) :
    host.Faultless fun go => host.call go f args
  binder {K : Known F P} {f : F} {e : Effect} (h : sig.binder K f e) (v : Datum F P) :
    Program host sig K e fun go => host.call go f [v]
  body {K : Known F P} {f : F} {e : Effect} (h : sig.body K f e) (n : Nat) :
    (host.start (perform host n) f).Keeps (fun _ => False) fun p => sig.place K p e
  place {K : Known F P} {p : P} {e : Effect} (h : sig.place K p e) (x : Datum F P) :
    Passage host sig e K fun go => host.resume go p x

/-! ## Functions -/

theorem Run.Keeps.ne_fault {ε α : Type} {m : Run ε σ α} {Q : α → Prop}
    (h : m.Keeps (fun _ => False) Q) (w : σ) (err : ε) : (m w).1 ≠ .fault err :=
  fun herr => (h w (m w).2).1 err (Prod.ext herr rfl)

theorem Run.Keeps.mapM {ε α β : Type} {A : ε → Prop} {Q : β → Prop} {f : α → Run ε σ β}
    {items : List α} (h : ∀ x ∈ items, (f x).Keeps A Q) :
    (items.mapM f).Keeps A fun results =>
      results.length = items.length ∧ ∀ y ∈ results, Q y := by
  induction items with
  | nil => exact Keeps.pure ⟨rfl, fun y hy => nomatch hy⟩
  | cons x items ih =>
    obtain ⟨hx, hitems⟩ := List.forall_mem_cons.mp h
    rw [List.mapM_cons]
    refine hx.bind fun y hy => (ih hitems).bind fun results hresults => Keeps.pure ⟨?_, ?_⟩
    · simp [hresults.1]
    · exact List.forall_mem_cons.mpr ⟨hy, hresults.2⟩

theorem callEach_eq_mapM (go : Performer σ F P) (f : Fn F P) (items : List (Datum F P)) :
    callEach go f items = items.mapM fun x => go (.call f [x]) := by
  induction items with
  | nil => rfl
  | cons x items ih => rw [callEach, ih, List.mapM_cons]

/-- As far as it shows within the bound `n`, the datum is a computation of the effect that never
ends with a fault. -/
abbrev Effect.Fits (host : Host σ F P) (n : Nat) (e : Effect) : Datum F P → Prop :=
  e.ShapedAt host (fun _ => False) n fun _ => True

variable {host : Host σ F P} {sig : Signature F P} {K : Known F P} {e : Effect} {d d' : Datum F P}
  {f : Fn F P} {k m n N : Nat}

/-- The known computations are of their effects, as far as it shows within the bound. -/
def Known.Fits (host : Host σ F P) (n : Nat) (K : Known F P) : Prop :=
  ∀ e d, K e d → e.Fits host n d

namespace Known.Fits

theorem none (host : Host σ F P) (n : Nat) : Known.none.Fits host n := fun _ _ h => h.elim

theorem extend (hK : K.Fits host n) (hd : e.Fits host n d) : (K.extend e d).Fits host n := by
  rintro e' d' (h | ⟨rfl, rfl⟩)
  · exact hK e' d' h
  · exact hd

theorem weaken (hs : host.Steady) (hmn : m ≤ n) (hK : K.Fits host n) : K.Fits host m :=
  fun e d h => (hK e d h).weaken hs hmn e fun _ => id

end Known.Fits

namespace Host

theorem Faultless.keeps {α : Type} {act : Performer σ F P → Act σ α} (h : host.Faultless act)
    (n : Nat) : (act (perform host n)).Keeps (fun _ => False) fun _ => True :=
  fun w _ => ⟨fun err herr => h n w err (congrArg Prod.fst herr), fun _ _ => trivial⟩

/-- A function that can be called with `k` data and raises no errors. -/
structure Applies (host : Host σ F P) (f : Fn F P) (k : Nat) : Prop where
  callable : f.callable = true
  call (n : Nat) (args : List (Datum F P)) (hargs : args.length = k) :
    (perform host n (.call f args)).Keeps (fun _ => False) fun _ => True

theorem Meets.applies (h : host.Meets sig) {f : F} (hf : sig.function f k) :
    host.Applies (.host f) k where
  callable := rfl
  call _ args hargs := perform_keeps fun n _ => (h.function args (hargs ▸ hf)).keeps n

/-- The functions of the effects themselves just give a datum. -/
theorem applies_of_pure (hf : f.callable = true)
    (h : ∀ args : List (Datum F P), args.length = k →
      ∃ v, ∀ go, f.callWith host go args = pure v) : host.Applies f k where
  callable := hf
  call n args hargs := by
    obtain ⟨v, hv⟩ := h args hargs
    refine perform_keeps fun n _ => ?_
    rw [Task.attempt, hv]
    exact Keeps.pure trivial

theorem applies_cons : host.Applies .cons 2 :=
  applies_of_pure rfl fun | [_, _], _ => ⟨_, fun _ => rfl⟩

theorem applies_unspool : host.Applies .unspool 1 :=
  applies_of_pure rfl fun | [_], _ => ⟨_, fun _ => rfl⟩

theorem applies_discard : host.Applies .discard 1 :=
  applies_of_pure rfl fun _ _ => ⟨_, fun _ => rfl⟩

/-! ## Operations -/

theorem unit_fits (host : Host σ F P) (he : e.IsStack) (v : Datum F P) (n : Nat) :
    (unitOf e v : Act σ (Datum F P)).Keeps (fun _ => False) (e.Fits host n) :=
  unit_keeps he trivial n

section Operations

variable (hs : host.Steady) (he : e.IsStack) (hn : n ≤ N + 1)

include hs he hn

theorem bind_fits (hd : e.Fits host (N + 1) d) (hf : f.callable = true)
    (hcall : ∀ v, (perform host N (.call f [v])).Keeps (fun _ => False) (e.Fits host N)) :
    (perform host n (.bind d f)).Keeps (fun _ => False) (e.Fits host (N + 1)) :=
  (bind_keeps hs he hd hf fun v _ => hcall v).of_below (perform_below hs hn _)

theorem map_fits (hd : e.Fits host (N + 1) d) (hf : host.Applies f 1) :
    (perform host n (.map d f)).Keeps (fun _ => False) (e.Fits host (N + 1)) :=
  (map_keeps hs he hd hf.callable fun v _ => hf.call N [v] rfl).of_below (perform_below hs hn _)

theorem fmap_fits (hd : e.Fits host (N + 1) d) (hf : host.Applies f 1) :
    (fmap (perform host n) f d).Keeps (fun _ => False) (e.Fits host (N + 1)) := by
  obtain ⟨c, rfl, rfl⟩ := hd.exists_effect
  refine bind_fits hs he hn hd rfl fun v => perform_keeps fun k _ => ?_
  exact (hf.call k [v] rfl).bind fun _ _ => host.unit_fits he _ N

theorem fmap2_fits (hd : e.Fits host (N + 1) d) (hd' : e.Fits host (N + 1) d')
    (hf : host.Applies f 2) :
    (fmap2 (perform host n) f d d').Keeps (fun _ => False) (e.Fits host (N + 1)) := by
  obtain ⟨c, rfl, rfl⟩ := hd.exists_effect
  refine bind_fits hs he hn hd rfl fun a => perform_keeps fun k hk => ?_
  subst hk
  refine bind_fits hs he k.le_succ (hd'.weaken hs k.succ.le_succ _ fun _ => id) rfl fun b => ?_
  refine perform_keeps fun j _ => ?_
  exact (hf.call j [a, b] rfl).bind fun _ _ => host.unit_fits he _ k

theorem collect_fits {cells : Datum F P} {items : List (Datum F P)}
    (hcells : e.Fits host (N + 1) cells) (hitems : ∀ d ∈ items, e.Fits host (N + 1) d) :
    (collect (perform host n) cells items).Keeps (fun _ => False) (e.Fits host (N + 1)) := by
  induction items generalizing cells with
  | nil => exact Keeps.pure hcells
  | cons d items ih =>
    obtain ⟨hd, hitems⟩ := List.forall_mem_cons.mp hitems
    exact (fmap2_fits hs he hn hcells hd applies_cons).bind fun _ h => ih h hitems

theorem sequence_fits {items : List (Datum F P)} {given : Option Effect}
    (hitems : ∀ d ∈ items, e.Fits host (N + 1) d) (hgiven : e.Chosen items given) :
    (sequence (perform host n) items given).Keeps (fun _ => False) (e.Fits host (N + 1)) := by
  have heffect : sequenceEffect items given = .ok e := by
    obtain rfl | ⟨rfl, hne⟩ := hgiven
    · cases items <;> rfl
    · obtain ⟨d, items, rfl⟩ := List.exists_cons_of_ne_nil hne
      obtain ⟨c, rfl, rfl⟩ := (hitems d List.mem_cons_self).exists_effect
      rfl
  rw [sequence, heffect, ofExcept_ok, pure_bind]
  refine (host.unit_fits he .null (N + 1)).bind fun _ hcells => ?_
  refine (collect_fits hs he hn hcells hitems).bind fun _ hcells => ?_
  exact fmap_fits hs he hn hcells applies_unspool

theorem traverse_fits {items : List (Datum F P)} {given : Option Effect}
    (hcall : ∀ v, (perform host n (.call f [v])).Keeps (fun _ => False) (e.Fits host (N + 1)))
    (hgiven : e.Chosen items given) :
    (traverse (perform host n) f items given).Keeps (fun _ => False) (e.Fits host (N + 1)) := by
  rw [traverse, callEach_eq_mapM]
  refine (Keeps.mapM fun v _ => hcall v).bind fun ds hds => ?_
  exact sequence_fits hs he hn hds.2 (hgiven.of_length hds.1)

theorem replicate_fits (hd : e.Fits host (N + 1) d) {count : Int} (hcount : 0 ≤ count) :
    (replicate (perform host n) count d).Keeps (fun _ => False) (e.Fits host (N + 1)) := by
  obtain ⟨c, rfl, rfl⟩ := hd.exists_effect
  rw [replicate, if_neg (Int.not_lt.mpr hcount)]
  refine sequence_fits hs he hn (fun d' hd' => ?_) (.inl rfl)
  exact List.eq_of_mem_replicate hd' ▸ hd

theorem block_fits (hf : f.callable = true)
    (hcall : ∀ v, (perform host N (.call f [v])).Keeps (fun _ => False) (e.Fits host N)) :
    (block (perform host n) e f).Keeps (fun _ => False) (e.Fits host (N + 1)) := by
  refine (host.unit_fits he .null (N + 1)).bind fun _ hd => ?_
  exact bind_fits hs he hn hd hf hcall

end Operations

theorem lift_fits (hs : host.Steady) (layer : Layer) (inner : Bases) {base : Effect}
    (hb : base.IsStack) (hn : n ≤ N + 1) (hd : base.Fits host (N + 1) d) :
    (Effect.lift (perform host n) (.transformer layer (.onto inner base)) d).Keeps
      (fun _ => False) (Effect.Fits host (N + 1) (.transformer layer (.onto inner base))) := by
  simp only [Effect.lift, Effect.base, Bases.base?, ofExcept_ok, pure_bind, hd.ensure]
  cases layer with
  | reader => exact Keeps.pure ⟨_, rfl, fun env => Keeps.pure hd⟩
  | state =>
    refine Keeps.pure ⟨_, rfl, fun s => ?_⟩
    refine (map_keeps hs hb hd rfl fun v _ => ?_).of_below (perform_below_succ hs N _)
    exact perform_keeps fun _ _ => Keeps.pure ⟨s, v, rfl, trivial⟩
  | maybe =>
    refine Keeps.bind ((map_keeps hs hb hd rfl fun v _ => ?_).of_below (perform_below hs hn _))
      fun c hc => Keeps.pure ⟨c, rfl, hc⟩
    exact perform_keeps fun _ _ => Keeps.pure (.inr ⟨v, rfl, trivial⟩)

theorem within_keeps {A : EffectError → Prop} {Q : Datum F P → Prop} (hreads : e.reads = true)
    (hd : e.ShapedAt host A (N + 1) Q d)
    (hf : ∀ env, (perform host N (.call f [env])).Keeps A fun _ => True) :
    (d.asComp "local" >>= fun c => offer (c.within f) : Act σ (Datum F P)).Keeps A
      (e.ShapedAt host A (N + 1) Q) := by
  match e with
  | .reader | .transformer .reader (.onto _ _) =>
    obtain ⟨m, rfl, hm⟩ := hd
    refine Keeps.pure ⟨_, rfl, fun env => ?_⟩
    exact (hf env).bind fun env _ => hm env
  | .transformer .reader .bare => exact hd.elim
  | .maybe | .state | .identity | .transformer .state _ | .transformer .maybe _ =>
    exact nomatch hreads

end Host

theorem offer_absent (inner : Bases) (base : Effect) :
    (offer (Effect.absent (.transformer .maybe (.onto inner base))) : Act σ (Datum F P)) =
      unitOf base (.comp .nothing) >>= fun d => pure (.comp (.maybeT (.onto inner base) d)) := by
  have habsent : Effect.absent (F := F) (P := P) (.transformer .maybe (.onto inner base)) =
      base.unit (.comp .nothing) >>= fun c => pure (.maybeT (.onto inner base) (.comp c)) := rfl
  simp only [offer, unitOf, habsent]
  cases base.unit (.comp .nothing : Datum F P) <;> rfl

theorem StateStep.fits {step : StateStep F P} (n : Nat)
    (h : ∀ k s, (step.runWith (perform host k) s).Keeps (fun _ => False) fun _ => True) :
    Effect.Fits host n .state (.comp (.state (.step step))) := by
  refine ⟨_, rfl, fun s => Host.perform_keeps fun k _ => (h k s).bind fun p _ => ?_⟩
  exact Keeps.pure ⟨p.1, p.2, rfl, trivial⟩

theorem Primitive.fits (hsig : host.Meets sig) {c : Except EffectError (Comp F P)}
    (hc : Primitive sig e c) (he : e.IsStack) (n : Nat) :
    (offer c : Act σ (Datum F P)).Keeps (fun _ => False) (e.Fits host n) := by
  cases hc with
  | unit e v => exact Host.unit_keeps he trivial n
  | nothing => exact Keeps.pure (.inl rfl)
  | ask =>
    refine Keeps.pure ⟨_, rfl, fun env => Host.perform_keeps fun k _ => ?_⟩
    exact Keeps.pure trivial
  | asks hf =>
    refine Keeps.pure ⟨_, rfl, fun env => Host.perform_keeps fun k _ => ?_⟩
    exact (hsig.applies hf).call k [env] rfl
  | get => exact Keeps.pure (StateStep.fits n fun k s => Keeps.pure trivial)
  | gets hf =>
    refine Keeps.pure (StateStep.fits n fun k s => ?_)
    exact ((hsig.applies hf).call k [s] rfl).bind fun _ _ => Keeps.pure trivial
  | put v => exact Keeps.pure (StateStep.fits n fun k s => Keeps.pure trivial)
  | modify hf =>
    refine Keeps.pure (StateStep.fits n fun k s => ?_)
    exact ((hsig.applies hf).call k [s] rfl).bind fun _ _ => Keeps.pure trivial
  | askT bases =>
    cases he with
    | layered _ _ hb =>
      refine Keeps.pure ⟨_, rfl, fun env => Host.perform_keeps fun k _ => ?_⟩
      exact Host.unit_keeps hb trivial n
  | getT bases =>
    cases he with
    | layered _ _ hb =>
      refine Keeps.pure ⟨_, rfl, fun s => Host.perform_keeps fun k _ => ?_⟩
      exact Host.unit_keeps hb ⟨s, s, rfl, trivial⟩ n
  | putT bases v =>
    cases he with
    | layered _ _ hb =>
      refine Keeps.pure ⟨_, rfl, fun s => Host.perform_keeps fun k _ => ?_⟩
      exact Host.unit_keeps hb ⟨v, .null, rfl, trivial⟩ n
  | absentT bases =>
    cases he with
    | @layered _ inner base hb =>
      rw [offer_absent]
      have hnothing : IsOptional (fun _ => True) (.comp .nothing : Datum F P) := .inl rfl
      exact (Host.unit_keeps hb hnothing n).bind fun d hd => Keeps.pure ⟨d, rfl, hd⟩

/-! ## Bounds -/

namespace Host

/-- Within the bound `N`, binders and bodies do what the signature says, if the computations that
they hold do. Binders that are called within a smaller bound than this are just as right. -/
structure SoundAt (host : Host σ F P) (sig : Signature F P) (N : Nat) : Prop where
  call {K : Known F P} {f : F} {e : Effect} (hK : K.Fits host N) (hf : sig.binder K f e)
    (he : e.IsStack) {n : Nat} (hn : n ≤ N) (v : Datum F P) :
    (perform host n (.call (.host f) [v])).Keeps (fun _ => False) (e.Fits host N)
  resume {K : Known F P} {p : P} {e : Effect} (hK : K.Fits host N) (hp : sig.place K p e)
    (he : e.IsStack) (x : Datum F P) :
    (perform host N (.call (.resume e p) [x])).Keeps (fun _ => False) (e.Fits host N)
  start {K : Known F P} {f : F} {e : Effect} (hK : K.Fits host N) (hf : sig.body K f e)
    (he : e.IsStack) (args : List (Datum F P)) :
    (perform host N (.call (.start e f) args)).Keeps (fun _ => False) (e.Fits host N)

end Host

section Sound

variable (hs : host.Steady) (hsig : host.Meets sig) (hN : host.SoundAt sig N) (hn : n ≤ N)
  (hcall : ∀ {K : Known F P} {f : F} {e : Effect}, K.Fits host (N + 1) → sig.binder K f e →
    e.IsStack → ∀ v,
    (perform host n (.call (.host f) [v])).Keeps (fun _ => False) (e.Fits host (N + 1)))

include hs hsig hN hn hcall

/-- **Programs build computations of the right shape.** What they bind is called within a smaller
bound, and what they call at once is right by assumption. -/
theorem Program.fits {m : Recipe σ F P} (hm : Program host sig K e m) (hK : K.Fits host (N + 1))
    (he : e.IsStack) :
    (m (perform host n)).Keeps (fun _ => False) (e.Fits host (N + 1)) := by
  have hn' : n ≤ N + 1 := hn.trans N.le_succ
  induction hm with
  | primitive hc => exact hc.fits hsig he (N + 1)
  | after hact _ ih => exact (hact.keeps n).bind fun x _ => ih x hK he
  | share he' _ _ ih ih' => exact (ih hK he').bind fun d hd => ih' d (hK.extend hd) he
  | known hd => exact Keeps.pure (hK _ _ hd)
  | within hreads hf _ ih =>
    exact (ih hK he).bind fun d hd =>
      Host.within_keeps hreads hd fun env => (hsig.applies hf).call N [env] rfl
  | lift layer inner _ ih =>
    cases he with
    | layered _ _ hb => exact (ih hK hb).bind fun d hd => Host.lift_fits hs layer inner hb hn' hd
  | bind _ hf ih =>
    -- No call at the larger bound is needed: effects that call binders at once have shapes that
    -- show within any bound.
    refine (ih hK he).bind fun d hd => Host.bind_fits hs he hn' hd rfl ?_
    exact hN.call (hK.weaken hs N.le_succ) hf he (le_refl N)
  | map _ hf ih => exact (ih hK he).bind fun d hd => Host.map_fits hs he hn' hd (hsig.applies hf)
  | andThen _ _ ih ih' =>
    refine (ih hK he).bind fun d hd => (ih' hK he).bind fun d' hd' => ?_
    refine Host.bind_fits hs he hn' hd rfl fun v => Host.perform_keeps fun _ _ => ?_
    exact Keeps.pure (hd'.weaken hs N.le_succ _ fun _ => id)
  | fmap hf _ ih => exact (ih hK he).bind fun d hd => Host.fmap_fits hs he hn' hd (hsig.applies hf)
  | fmap2 hf _ _ ih ih' =>
    exact (ih hK he).bind fun d hd => (ih' hK he).bind fun d' hd' =>
      Host.fmap2_fits hs he hn' hd hd' (hsig.applies hf)
  | sequence _ hgiven ih =>
    refine (Keeps.mapM fun m hm => ih m hm hK he).bind fun ds hds => ?_
    exact Host.sequence_fits hs he hn' hds.2 (hgiven.of_length hds.1)
  | traverse hf hgiven => exact Host.traverse_fits hs he hn' (hcall hK hf he) hgiven
  | forEach hf hgiven =>
    refine (Host.traverse_fits hs he hn' (hcall hK hf he) hgiven).bind fun d hd => ?_
    exact Host.fmap_fits hs he hn' hd Host.applies_discard
  | replicate hcount _ ih =>
    exact (ih hK he).bind fun d hd => Host.replicate_fits hs he hn' hd hcount
  | block hf =>
    exact Host.block_fits hs he hn' rfl fun v =>
      hN.start (hK.weaken hs N.le_succ) hf he [v]
  | plainBlock hf =>
    refine Host.block_fits hs he hn' rfl fun v => Host.perform_keeps fun k _ => ?_
    exact ((hsig.applies hf).call k [] rfl).bind fun v _ => host.unit_fits he v N

/-- **Bodies yield computations of the right shape** and go on at right places. -/
theorem Passage.orderly {passage : Performer σ F P → Act σ (Progress F P)}
    (h : Passage host sig e K passage) (hK : K.Fits host (N + 1)) (he : e.IsStack) :
    (passage (perform host n)).Keeps (fun _ => False)
      (Host.Orderly (e.Fits host (N + 1)) fun p =>
        ∃ K : Known F P, K.Fits host (N + 1) ∧ sig.place K p e) := by
  induction h with
  | returned v => exact Keeps.pure trivial
  | yielded hm hrest =>
    exact (hm.fits hs hsig hN hn hcall hK he).bind fun d hd => Keeps.pure ⟨hd, _, hK, hrest⟩
  | after hact _ ih => exact (hact.keeps n).bind fun x _ => ih x hK
  | share he' hm _ ih =>
    exact (hm.fits hs hsig hN hn hcall hK he').bind fun d hd => ih d (hK.extend hd)

end Sound

namespace Host

/-- **Binders and bodies do what the signature says**, within every bound. -/
theorem soundAt (hs : host.Steady) (hsig : host.Meets sig) (N : Nat) : host.SoundAt sig N := by
  induction N with
  | zero =>
    refine ⟨fun _ _ _ n hn v => ?_, fun _ _ _ _ => Keeps.unfinished,
      fun _ _ _ _ => Keeps.unfinished⟩
    obtain rfl := Nat.le_zero.mp hn
    exact Keeps.unfinished
  | succ N ih =>
    have hcall : ∀ n ≤ N + 1, ∀ {K : Known F P} {f : F} {e : Effect}, K.Fits host (N + 1) →
        sig.binder K f e → e.IsStack → ∀ v,
        (perform host n (.call (.host f) [v])).Keeps (fun _ => False) (e.Fits host (N + 1)) := by
      -- A traversal calls its binder while it is built, and what comes out has to be right up to
      -- `N + 1`. So the bound of the call goes down while that of the shape stays.
      intro n hn
      induction n with
      | zero => exact fun _ _ _ _ => Keeps.unfinished
      | succ n ihn =>
        intro K f e hK hf he v
        have hle : n ≤ N := Nat.le_of_succ_le_succ hn
        exact (hsig.binder hf v).fits hs hsig ih hle (ihn (hle.trans N.le_succ)) hK he
    have hresume : ∀ {K : Known F P} {p : P} {e : Effect}, K.Fits host (N + 1) →
        sig.place K p e → e.IsStack → ∀ x,
        (perform host (N + 1) (.call (.resume e p) [x])).Keeps (fun _ => False)
          (e.Fits host (N + 1)) := by
      intro K p e hK hp he x
      refine resume_keeps hs he
        ((hsig.place hp x).orderly hs hsig ih (le_refl N) (hcall N N.le_succ) hK he) ?_
      rintro q ⟨K, hK, hq⟩ y
      exact ih.resume (hK.weaken hs N.le_succ) hq he y
    refine ⟨fun hK hf he n hn v => hcall n hn hK hf he v, hresume, fun hK hf he args => ?_⟩
    exact start_keeps hs (hsig.body hf N) (fun p hp => hresume hK hp he .null) args

end Host

/-! ## No faults -/

/-- **Well-typed programs never end with a fault**: if the callbacks of a host raise no errors, its
binders give programs of their effect and its bodies yield such programs, then a program of an
effect stack is built and run completely, with any environments and states, without a fault. -/
theorem programs_never_fault {host : Host σ F P} (hs : host.Steady) {sig : Signature F P}
    (hsig : host.Meets sig) {e : Effect} (he : e.IsStack) {m : Recipe σ F P}
    (hm : Program host sig .none e m) (inputs : Inputs F P) (n : Nat) (w : σ)
    (err : EffectError) : (host.completes e inputs m n w).1 ≠ .fault err := by
  have hbuild := hm.fits hs hsig (Host.soundAt hs hsig n) (le_refl n)
    (fun hK hf he v => (Host.soundAt hs hsig (n + 1)).call hK hf he n.le_succ v)
    (Known.Fits.none host (n + 1)) he
  refine Keeps.ne_fault (Q := fun _ => True) (hbuild.bind fun d hd => ?_) w err
  exact Host.complete_keeps e (hd.weaken hs n.le_succ e fun _ => id) inputs

/-! ## A sample host -/

inductive Desk
  | looking
  | seen
  | reading
  | ending

/-- Two functions, two binders, one of which holds a computation, and a body. -/
inductive Clerk
  | add
  | double
  | tally
  | again (d : Datum Clerk Desk)
  | counting

/-- State over an environment. -/
abbrev clerkBase : Effect := .transformer .state (.onto .bare .reader)

/-- Absence over state over an environment. -/
abbrev clerkEffect : Effect := .transformer .maybe (.onto .bare clerkBase)

/-- The sum of two numbers. -/
def Datum.plus : Datum F P → Datum F P → Datum F P
  | .int a, .int b => .int (a + b)
  | _, _ => .null

def clerkLift (e : Effect) (m : Recipe Unit Clerk Desk) : Recipe Unit Clerk Desk := fun go => do
  let d ← m go
  Effect.lift go e d

/-- Twice the environment. -/
def clerkReading : Recipe Unit Clerk Desk := fun _ => do
  let c ← (← offer (.ok (.reader .ask))).asComp "local"
  offer (c.within (.host .double))

def clerks : Host Unit Clerk Desk where
  call go f args :=
    match f, args with
    | .add, [a, b] => return a.plus b
    | .double, [a] => return a.plus a
    | .tally, [x] => do
      let d ← unitOf clerkEffect x
      let d' ← block go clerkEffect (.start clerkEffect .counting)
      fmap2 go (.host .add) d d'
    | .again d, [_] => return d
    | _, _ => return .null
  start _ _ := return .looking
  resume go p x :=
    match p with
    | .looking => do
      let d ← clerkLift clerkEffect (fun _ => offer (Effect.get clerkBase)) go
      return .yielded d .seen
    | .seen => do
      let d ← clerkLift clerkEffect (fun _ => offer (Effect.put clerkBase (x.plus x))) go
      return .yielded d .reading
    | .reading => do
      let d ← clerkLift clerkEffect (clerkLift clerkBase clerkReading) go
      return .yielded d .ending
    | .ending => return .returned x

def clerkSignature : Signature Clerk Desk where
  function f k := f = .add ∧ k = 2 ∨ f = .double ∧ k = 1
  binder K f e := e = clerkEffect ∧ (f = .tally ∨ ∃ d, f = .again d ∧ K e d)
  body _ f e := f = .counting ∧ e = clerkEffect
  place _ _ e := e = clerkEffect

theorem clerkLift_follows (e : Effect) {m : Recipe Unit Clerk Desk} (hm : Follows m) :
    Follows (clerkLift e m) :=
  hm.bind fun d => Effect.lift_follows d e

theorem clerks_steady : clerks.Steady where
  call h f args := by
    dsimp only [clerks]
    split
    case h_3 =>
      refine (Below.refl _).bind fun d => (block_follows _ _ h).bind fun d' => ?_
      exact fmap2_follows _ d d' h
    all_goals exact Below.refl _
  start _ _ := Below.refl _
  resume h p x := by
    have hlift : ∀ e (m : Act Unit (Datum Clerk Desk)), Follows (clerkLift e fun _ => m) :=
      fun e m => clerkLift_follows e (Follows.const m)
    cases p with
    | looking | seen => exact (hlift _ _ h).bind fun _ => Below.refl _
    | reading =>
      exact (clerkLift_follows clerkEffect (hlift clerkBase _) h).bind fun _ => Below.refl _
    | ending => exact Below.refl _

theorem clerks_meet : clerks.Meets clerkSignature where
  function args h := by
    obtain ⟨rfl, hargs⟩ | ⟨rfl, hargs⟩ := h
    · match args, hargs with
      | [a, b], _ => exact fun n w err => nofun
    · match args, hargs with
      | [a], _ => exact fun n w err => nofun
  binder h x := by
    obtain ⟨rfl, rfl | ⟨d, rfl, hd⟩⟩ := h
    · exact .fmap2 (.inl ⟨rfl, rfl⟩) (.primitive (.unit _ x)) (.block ⟨rfl, rfl⟩)
    · exact .known hd
  body h _ := Keeps.pure h.2
  place {K p _} h x := by
    obtain rfl := h
    have hlift : ∀ {c}, Primitive clerkSignature clerkBase c →
        Program clerks clerkSignature K clerkEffect (clerkLift clerkEffect fun _ => offer c) :=
      fun hc => .lift .maybe .bare (.primitive hc)
    cases p with
    | looking => exact .yielded (hlift (.getT _)) rfl
    | seen => exact .yielded (hlift (.putT _ _)) rfl
    | reading =>
      refine .yielded (.lift .maybe .bare (.lift .state .bare ?_)) rfl
      exact .within rfl (.inr ⟨rfl, rfl⟩) (.primitive .ask)
    | ending => exact .returned x

/-- Two counts, one after the other, and then the same computation again. -/
theorem programs_never_fault_twice :
    let m : Recipe Unit Clerk Desk := fun go => do
      let d ← traverse go (.host .tally) [.int 1, .int 2] none
      go (.bind d (.host (.again d)))
    let inputs : Inputs Clerk Desk := ((Stream'.const .null).cons (.int 5)).cons (.int 3)
    clerks.Steady ∧ clerks.Meets clerkSignature ∧ clerkEffect.IsStack ∧
    Program clerks clerkSignature .none clerkEffect m ∧
    (∀ n err, (clerks.completes clerkEffect inputs m n ()).1 ≠ .fault err) ∧
    Settles (clerks.completes clerkEffect inputs m) ()
      (.done (.tuple [.int 48, .comp (.some (.list [.int 11, .int 12]))])) () := by
  intro m inputs
  have he : clerkEffect.IsStack := .layered _ _ (.layered _ _ .reader)
  have hm : Program clerks clerkSignature .none clerkEffect m := by
    refine .share he (.traverse ⟨rfl, .inl rfl⟩ (.inr ⟨rfl, by simp⟩)) fun d => ?_
    have hd : (Known.none.extend clerkEffect d) clerkEffect d := .inr ⟨rfl, rfl⟩
    exact .bind (.known hd) ⟨rfl, .inr ⟨d, rfl, hd⟩⟩
  refine ⟨clerks_steady, clerks_meet, he, hm, fun n err => ?_, by simp, 80, rfl⟩
  exact programs_never_fault clerks_steady clerks_meet he hm inputs n () err

end EffectCalculus
