import EffectCalculus.Effect.Combinators

/-!
# The bound of a task

A larger bound changes nothing about a task that ends (`perform_below`), provided that the host is
steady: its callbacks and bodies end in the same way when the tasks they hand out end in the same
way.
-/

namespace EffectCalculus

open Run

variable {σ F P : Type}

/-- Every task that `go` ends, `go'` ends in the same way. -/
def Performer.Below (go go' : Performer σ F P) : Prop := ∀ t, Run.Below (go t) (go' t)

/-- The host follows the tasks that it hands out. -/
structure Host.Steady (host : Host σ F P) : Prop where
  call {go go' : Performer σ F P} (h : go.Below go') (f : F) (args : List (Datum F P)) :
    Run.Below (host.call go f args) (host.call go' f args)
  start {go go' : Performer σ F P} (h : go.Below go') (f : F) :
    Run.Below (host.start go f) (host.start go' f)
  resume {go go' : Performer σ F P} (h : go.Below go') (p : P) (d : Datum F P) :
    Run.Below (host.resume go p d) (host.resume go' p d)

variable {go go' : Performer σ F P}

/-! ## Binding, mapping and running -/

theorem Comp.bindWith_below (h : go.Below go') (c : Comp F P) (f : Fn F P) :
    Below (c.bindWith go f) (c.bindWith go' f) := by
  unfold Comp.bindWith
  split
  · exact (h _).bind fun _ => Below.refl _
  · exact Below.refl _
  · exact (h _).bind fun _ => Below.refl _
  · exact Below.refl _
  · exact Below.refl _
  · exact Below.refl _
  · exact Below.refl _
  · split
    · exact Below.refl _
    · exact (h _).bind fun _ => Below.refl _

theorem Comp.mapWith_below (h : go.Below go') (c : Comp F P) (f : Fn F P) :
    Below (c.mapWith go f) (c.mapWith go' f) := by
  unfold Comp.mapWith
  split
  · exact (h _).bind fun _ => Below.refl _
  · exact Below.refl _
  · exact Below.refl _
  · exact Below.refl _
  · split
    · exact h _
    · exact Below.refl _

theorem ReaderProg.runWith_below (h : go.Below go') (m : ReaderProg F P) (env : Datum F P) :
    Below (m.runWith go env) (m.runWith go' env) := by
  match m with
  | .pure _ | .ask => exact Below.refl _
  | .asks f => exact h _
  | .map m f => exact (runWith_below h m env).bind fun _ => h _
  | .bind m f =>
    refine (runWith_below h m env).bind fun _ => (h _).bind fun next => ?_
    split
    · exact h _
    · exact Below.refl _
  | .within f m => exact (h _).bind fun env => runWith_below h m env

theorem StateStep.runWith_below (h : go.Below go') (m : StateStep F P) (s : Datum F P) :
    Below (m.runWith go s) (m.runWith go' s) := by
  cases m with
  | pure | get | put => exact Below.refl _
  | gets f => exact (h _).bind fun _ => Below.refl _
  | modify f => exact (h _).bind fun _ => Below.refl _
  | raw f => exact (h _).bind fun _ => Below.refl _

theorem ReaderTProg.runWith_below (h : go.Below go') (bases : Bases) (m : ReaderTProg F P)
    (env : Datum F P) : Below (m.runWith go bases env) (m.runWith go' bases env) := by
  match m with
  | .pure _ | .ask | .lift _ => exact Below.refl _
  | .raw f => exact h _
  | .bind m f => exact (runWith_below h bases m env).bind fun _ => h _
  | .within f m => exact (h _).bind fun env => runWith_below h bases m env

theorem StateTProg.runWith_below (h : go.Below go') (bases : Bases) (m : StateTProg F P)
    (s : Datum F P) : Below (m.runWith go bases s) (m.runWith go' bases s) := by
  match m with
  | .pure _ | .get | .put _ => exact Below.refl _
  | .lift c => exact h _
  | .raw f => exact h _
  | .bind m f => exact (runWith_below h bases m s).bind fun _ => h _

/-! ## Calling -/

theorem Fn.callWith_below {host : Host σ F P} (hs : host.Steady) (h : go.Below go') (f : Fn F P)
    (args : List (Datum F P)) : Below (f.callWith host go args) (f.callWith host go' args) := by
  unfold Fn.callWith
  split
  case h_1 => exact hs.call h _ _
  case h_3 => exact (h _).bind fun _ => Below.refl _
  case h_5 => exact h _
  case h_6 => exact (h _).bind fun _ => Below.refl _
  case h_12 =>
    refine (h _).bind fun _ => (Below.refl _).bind fun _ => ?_
    split
    · exact h _
    · exact Below.refl _
  case h_13 =>
    refine (Below.refl _).bind fun _ => (h _).bind fun _ => (Below.refl _).bind fun _ => ?_
    split
    · exact h _
    · exact Below.refl _
  case h_14 =>
    split
    · exact (h _).bind fun _ => Below.refl _
    · exact Below.refl _
  case h_15 => exact (hs.start h _).bind fun _ => h _
  case h_16 => exact (h _).bind fun _ => Below.refl _
  case h_17 =>
    refine (hs.resume h _ _).bind fun progress => ?_
    split
    · exact Below.refl _
    · split
      · exact h _
      · exact h _
    · exact Below.refl _
  all_goals exact Below.refl _

/-! ## Tasks -/

theorem Task.attempt_below {host : Host σ F P} (hs : host.Steady) (h : go.Below go')
    (t : Task F P) : Below (t.attempt host go) (t.attempt host go') := by
  unfold Task.attempt
  split
  · exact Fn.callWith_below hs h _ _
  · exact Comp.bindWith_below h _ _
  · exact Below.refl _
  · exact Comp.mapWith_below h _ _
  · exact Below.refl _
  · exact ReaderProg.runWith_below h _ _
  · refine (StateStep.runWith_below h _ _).bind fun ⟨s, v⟩ => ?_
    dsimp only
    split
    · exact Below.refl _
    · refine (h _).bind fun _ => ?_
      split
      · exact h _
      · exact Below.refl _
  · exact ReaderTProg.runWith_below h _ _ _
  · exact StateTProg.runWith_below h _ _ _

theorem perform_below_succ {host : Host σ F P} (hs : host.Steady) (n : Nat) :
    (perform host n).Below (perform host (n + 1)) := by
  induction n with
  | zero => exact fun _ => unfinished_below _
  | succ n ih => exact fun t => Task.attempt_below hs ih t

theorem perform_below {host : Host σ F P} (hs : host.Steady) {m n : Nat} (h : m ≤ n) :
    (perform host m).Below (perform host n) :=
  fun t => below_of_succ (fun n => perform_below_succ hs n t) h

end EffectCalculus
