import EffectCalculus.Proofs.Effect.Binding

/-!
# Foreign computations in a block

The body of a block may yield a computation of another effect. Nothing looks at its effect then: it
is bound to the rest of the body, and what comes out is left to whatever checks come later. What the
body does from there on is one run of it, turn by turn.

* `Turn`, `Host.Takes`, `Host.Next`: one run of a body; the next turn follows if binding what the
  body has yielded calls the binder at once;
* `Host.Strays`: in its turn the body yields a foreign computation;
* `Host.Fails`, `Host.Halts`: the errors that may come up in this run, and that it comes to an end;
* `Host.fromTurn_fails`, `Host.enter_ends_iff`: **a block fails by what comes up in this run of its
  body, and ends exactly if the run does**.
-/

namespace EffectCalculus

open Run

variable {σ F P : Type}

/-! ## Turns of a body -/

/-- A body that is about to be resumed: where it stands, what it is given, and the world that it
finds. -/
structure Turn (σ F P : Type) where
  place : P
  sent : Datum F P
  world : σ

namespace Host

/-- The body may yield `d` when it is resumed at `p`, and then waits at `q`. -/
def Offers (host : Host σ F P) (p : P) (d : Datum F P) (q : P) : Prop :=
  ∃ x w w', Settles (fun n => host.resume (perform host n) p x) w (.done (.yielded d q)) w'

/-- The places that the body may come to. -/
inductive Visits (host : Host σ F P) (body : F) : P → Prop
  | opened {p : P} {w w' : σ}
    (h : Settles (fun n => host.start (perform host n) body) w (.done p) w') : Visits host body p
  | resumed {p q : P} {d : Datum F P} (hp : Visits host body p) (h : host.Offers p d q) :
    Visits host body q

/-- How the body ends its turn, and the world that it leaves. -/
def Takes (host : Host σ F P) (t : Turn σ F P) (out : Outcome EffectError (Progress F P))
    (w' : σ) : Prop :=
  Settles (fun n => host.resume (perform host n) t.place t.sent) t.world out w'

/-- The body takes its next turn at once, because binding what it has yielded calls the binder. -/
inductive Next (host : Host σ F P) (t : Turn σ F P) : Turn σ F P → Prop
  | intro {d v : Datum F P} {q : P} {w' : σ} (h : host.Takes t (.done (.yielded d q)) w')
    (hd : d.binding = .calls v) : Next host t ⟨q, v, w'⟩

/-- From this turn on the body comes to an end: it ends each of its turns, and there is a last
one. -/
inductive Halts (host : Host σ F P) : Turn σ F P → Prop
  | intro {t : Turn σ F P} {out : Outcome EffectError (Progress F P)} {w' : σ}
    (h : host.Takes t out w') (next : ∀ t', host.Next t t' → Halts host t') : Halts host t

/-- The errors that may come up from this turn on: failed checks, what the body raises itself, and
the attempt to bind what is no computation. -/
inductive Fails (host : Host σ F P) : Turn σ F P → EffectError → Prop
  | check (t : Turn σ F P) {err : EffectError} (h : err.isCheck = true) : Fails host t err
  | raised {t : Turn σ F P} {err : EffectError} {w' : σ} (h : host.Takes t (.fault err) w') :
    Fails host t err
  | hollow {t : Turn σ F P} {d : Datum F P} {q : P} {w' : σ} {kind : String}
    (h : host.Takes t (.done (.yielded d q)) w') (hd : d.binding = .hollow kind) :
    Fails host t (.unsupported "flat_map" kind)
  | later {t t' : Turn σ F P} {err : EffectError} (h : host.Next t t') (ht : Fails host t' err) :
    Fails host t err

/-- In this turn, which leaves the world `w'`, the body yields a computation that is not of the
effect. -/
def Strays (host : Host σ F P) (e : Effect) (t : Turn σ F P) (w' : σ) : Prop :=
  ∃ m q, host.Takes t (.done (.yielded (.comp m) q)) w' ∧ m.effect.isA e = false

end Host

/-! ## A block from a turn on -/

/-- Only a present result in a block of the maybe effect is not bound. -/
theorem Comp.handTo_cases (e : Effect) (m : Comp F P) :
    (m.effect.isA e = true ∧ ∃ v, (Datum.comp m).binding = .calls v ∧
      ∀ (go : Performer σ F P) (rest : Fn F P), m.handTo go e rest = go (.call rest [v])) ∨
    ∀ (go : Performer σ F P) (rest : Fn F P), m.handTo go e rest = go (.bind (.comp m) rest) := by
  cases e with
  | maybe =>
    cases m with
    | some v => exact .inl ⟨rfl, v, rfl, fun _ _ => rfl⟩
    | _ => exact .inr fun _ _ => rfl
  | _ => exact .inr fun _ _ => rfl

namespace Host

/-- What a block does from a turn of its body on. -/
def fromTurn (host : Host σ F P) (e : Effect) (t : Turn σ F P) (n : Nat) :
    Outcome EffectError (Datum F P) × σ :=
  perform host n (.call (.resume e t.place) [t.sent]) t.world

variable {host : Host σ F P} {e : Effect}

theorem fromTurn_succ (t : Turn σ F P) (n : Nat) :
    host.fromTurn e t (n + 1) = (host.resume (perform host n) t.place t.sent >>= fun progress =>
      progress.enter (perform host n) e) t.world :=
  congrFun (Fn.callWith_resume host (perform host n) e t.place t.sent) t.world

section Steady

variable (hs : host.Steady) {t : Turn σ F P} {progress : Progress F P} {err : EffectError}
  {n : Nat} {w' w₁ : σ}

include hs

theorem takes_unique {out out' : Outcome EffectError (Progress F P)} (h : host.Takes t out w')
    (h' : host.Takes t out' w₁) : out = out' ∧ w' = w₁ :=
  Run.settles_unique (hs.rising fun _ _ h => hs.resume h t.place t.sent) h h'

theorem enter_fails (ht : host.Takes t (.done progress) w')
    (ih : ∀ t', (host.fromTurn e t' n).1 = .fault err → host.Fails t' err)
    (h : progress.enter (perform host n) e w' = (.fault err, w₁)) : host.Fails t err := by
  cases progress with
  | returned v =>
    change unitOf e v w' = (.fault err, w₁) at h
    rw [unitOf_eq] at h
    cases hunit : e.unit v with
    | ok c =>
      rw [hunit] at h
      cases h
    | error err' =>
      rw [hunit] at h
      cases h
      exact .check t (Effect.isCheck_of_unit hunit)
  | yielded d q =>
    cases d with
    | comp m =>
      have called : ∀ v, (Datum.comp m).binding = .calls v →
          perform host n (.call (.resume e q) [v]) w' = (.fault err, w₁) → host.Fails t err :=
        fun v hv hcall => .later (.intro ht hv) (ih ⟨q, v, w'⟩ (congrArg Prod.fst hcall))
      change m.handTo (perform host n) e (.resume e q) w' = (.fault err, w₁) at h
      rcases m.handTo_cases (σ := σ) e with ⟨-, v, hv, hhand⟩ | hhand
      · rw [hhand] at h
        exact called v hv h
      · rw [hhand] at h
        rcases (perform_binds (.comp m) rfl).fails hs h with hcheck | ⟨kind, hkind, rfl⟩ | hcall
        · exact .check t hcheck
        · exact .hollow ht hkind
        · obtain ⟨v, hv, hcall⟩ := hcall
          exact called v hv hcall
    | _ =>
      cases h
      exact .check t rfl

/-- The errors that a block ends with from a turn of its body on. -/
theorem fromTurn_fails (h : (host.fromTurn e t n).1 = .fault err) : host.Fails t err := by
  induction n generalizing t with
  | zero => cases h
  | succ n ih =>
    rcases hend : host.fromTurn e t (n + 1) with ⟨out, w₁⟩
    rw [hend] at h
    cases h
    rw [fromTurn_succ, Run.bind_eq_fault] at hend
    rcases hend with hraised | ⟨progress, w', hprogress, hhand⟩
    · exact .raised ⟨by simp, n, hraised⟩
    · exact enter_fails hs ⟨by simp, n, hprogress⟩ (fun _ => ih) hhand

theorem enter_halts (ht : host.Takes t (.done progress) w')
    (ih : ∀ t', (host.fromTurn e t' n).1 ≠ .unfinished → host.Halts t')
    (h : (progress.enter (perform host n) e w').1 ≠ .unfinished) : host.Halts t := by
  refine .intro ht ?_
  rintro _ ⟨hyield, hv⟩
  obtain ⟨hprogress, rfl⟩ := takes_unique hs ht hyield
  cases hprogress
  next d v q =>
    cases d with
    | comp m =>
      apply ih ⟨q, v, w'⟩
      change (m.handTo (perform host n) e (.resume e q) w').1 ≠ .unfinished at h
      rcases m.handTo_cases (σ := σ) e with ⟨-, v', hv', hhand⟩ | hhand
      · rw [hhand] at h
        cases hv.symm.trans hv'
        exact h
      · rw [hhand] at h
        have hbinds : host.Binds (.comp m) (.resume e q) (.calls v) := hv ▸ perform_binds _ rfl
        exact hbinds.call_ends hs h
    | _ => cases hv

/-- If a block ends from a turn of its body on, then the body does. -/
theorem fromTurn_halts (h : (host.fromTurn e t n).1 ≠ .unfinished) : host.Halts t := by
  induction n generalizing t with
  | zero => exact absurd rfl h
  | succ n ih =>
    rw [fromTurn_succ] at h
    rcases hturn : host.resume (perform host n) t.place t.sent t.world with ⟨a | err | _, w'⟩
    · rw [Run.bind_done hturn] at h
      exact enter_halts hs ⟨by simp, n, hturn⟩ (fun _ => ih) h
    · have ht : host.Takes t (.fault err) w' := ⟨by simp, n, hturn⟩
      refine .intro ht ?_
      rintro _ ⟨hyield, -⟩
      cases (takes_unique hs ht hyield).1
    · rw [Run.bind_unfinished hturn] at h
      exact absurd rfl h

omit hs in
theorem enter_ends (ht : host.Takes t (.done progress) w')
    (hnext : ∀ t', host.Next t t' → ∃ n, (host.fromTurn e t' n).1 ≠ .unfinished) :
    ∃ n, (progress.enter (perform host n) e w').1 ≠ .unfinished := by
  cases progress with
  | returned v =>
    refine ⟨0, ?_⟩
    show (unitOf e v w').1 ≠ .unfinished
    rw [unitOf_eq]
    exact Run.ofExcept_ends _ _
  | yielded d q =>
    cases d with
    | comp m =>
      have called : ∀ v, (Datum.comp m).binding = .calls v →
          ∃ n, (perform host n (.call (.resume e q) [v]) w').1 ≠ .unfinished :=
        fun v hv => hnext ⟨q, v, w'⟩ (.intro ht hv)
      show ∃ n, (m.handTo (perform host n) e (.resume e q) w').1 ≠ .unfinished
      rcases m.handTo_cases (σ := σ) e with ⟨-, v, hv, hhand⟩ | hhand
      · simp only [hhand]
        exact called v hv
      · simp only [hhand]
        exact (perform_binds (.comp m) rfl).ends called
    | _ => exact ⟨0, by simp [Progress.enter]⟩

/-- If the body comes to an end from a turn on, then the block does. -/
theorem fromTurn_ends (h : host.Halts t) : ∃ n, (host.fromTurn e t n).1 ≠ .unfinished := by
  induction h with
  | @intro t out w' ht next ih =>
    obtain ⟨hout, n, hn⟩ := ht
    cases out with
    | unfinished => exact absurd rfl hout
    | fault err =>
      refine ⟨n + 1, ?_⟩
      rw [fromTurn_succ, Run.bind_fault hn]
      simp
    | done progress =>
      obtain ⟨n', hn'⟩ := enter_ends ⟨hout, n, hn⟩ ih
      -- The larger of the two bounds is enough for both parts.
      have hturn := (hs.rising (fun _ _ h => hs.resume h t.place t.sent)) (Nat.le_max_left n n')
        t.world (by simp [hn])
      have hhand : progress.enter (perform host (max n n')) e w' =
          progress.enter (perform host n') e w' :=
        (hs.rising (Progress.enter_follows e progress)) (Nat.le_max_right n n') w' hn'
      refine ⟨max n n' + 1, ?_⟩
      rw [fromTurn_succ, Run.bind_done (hturn.trans hn), hhand]
      exact hn'

/-- From a turn on that the body has ended, a block ends exactly if the body does. -/
theorem enter_ends_iff (ht : host.Takes t (.done progress) w') :
    (∃ n, (progress.enter (perform host n) e w').1 ≠ .unfinished) ↔ host.Halts t := by
  constructor
  · rintro ⟨n, hn⟩
    exact enter_halts hs ht (fun _ => fromTurn_halts hs) hn
  · rintro ⟨-, next⟩
    exact enter_ends ht fun t' ht' => fromTurn_ends hs (next t' ht')

end Steady

end Host

end EffectCalculus
