import EffectCalculus.Proofs.Effect.Carry
import Mathlib.Data.Int.Fib.Basic
import Mathlib.Tactic.LinearCombination

/-!
# What the counting programs compute

The same steps are taken in three ways: by a block that contains itself, by a loop that puts blocks
in a sequence, and by a loop inside one block. Each way has an induction of its own, and all come to
the same number of steps on plain numbers.

* `next`: one Fibonacci step on numbers;
* `carries_increment`, `carries_fibStep`: the two blocks that the programs are made of;
* `countUp_builds`, `carries_fibState`, `fibFor_builds`, `carries_fibLoop`: what the programs do to
  a state, for every size;
* `iterate_next`: several Fibonacci steps at once;
* `counting_closed_forms`: **the programs compute their closed forms**.
-/

namespace EffectCalculus.Counter

open Host

/-- The program of a block. -/
abbrev Routine.prog (r : Routine) : StateProg Callback Stage :=
  .bind (.step (.pure .null)) (.start .state (.body r))

theorem unbounded_program (r : Routine) :
    host.unbounded (fun go => r.program go) = pure (.comp (.state r.prog)) :=
  unbounded_block_state host_steady rfl

theorem does_making (r : Routine) (x : Item) :
    host.does (.call (.host (.making r)) [x]) = pure (.comp (.state r.prog)) := by
  rw [does_eq host_steady]
  exact unbounded_program r

theorem Routine.program_follows (r : Routine) : Follows fun go : Go => r.program go :=
  block_follows _ _

theorem carries_prog {r : Routine} {s s' v : Item}
    (h : host.Finishes (.opening r) .null s s' v) : host.Carries r.prog s s' v :=
  h.block host_steady (unbounded_of_pure fun _ => rfl)

theorem program_builds {r : Routine} {s s' v : Item} (h : host.Carries r.prog s s' v) :
    host.Builds (fun go => r.program go) s s' v :=
  ⟨r.prog, unbounded_program r, h⟩

theorem finishes_finish (x s : Item) : host.Finishes .finish x s s .null :=
  .returned host_steady (unbounded_of_pure fun _ => rfl) s

/-- A body that reads the state first. -/
theorem finishes_reading {p q : Stage} {x s s' v : Item}
    (h : ∀ go, p.resume go x = pure (.yielded reading q)) (hq : host.Finishes q s s s' v) :
    host.Finishes p x s s' v :=
  .yielded host_steady (unbounded_of_pure h) (carries_get host_steady s) hq

/-- A body that sets the state first. -/
theorem finishes_setting {p q : Stage} {x s s₁ s' v : Item}
    (h : ∀ go, p.resume go x = pure (.yielded (setting s₁) q))
    (hq : host.Finishes q .null s₁ s' v) : host.Finishes p x s s' v :=
  .yielded host_steady (unbounded_of_pure h) (carries_put host_steady s₁ s) hq

/-! ## Counting -/

theorem carries_increment (n : Int) :
    host.Carries Routine.increment.prog (.int n) (.int (n + 1)) .null :=
  carries_prog <| finishes_reading (fun _ => rfl) <|
    finishes_setting (fun _ => rfl) <| finishes_finish _ _

theorem length_numbers (first last : Int) :
    (numbers first last).length = (last - first).toNat := by
  simp [numbers]

theorem countUp_builds (n s : Int) :
    host.Builds (fun go => countUp go n) (.int s) (.int (s + max n 0)) (.int (s + max n 0)) := by
  have hsteps := forEach_builds_iterate host_steady (does_making .increment) carries_increment
    (numbers 0 n) s
  rw [length_numbers, add_right_iterate, nsmul_one, Int.sub_zero, Int.toNat_eq_max] at hsteps
  refine program_builds <| carries_prog <|
    .built host_steady (forEach_follows _ _ _) (fun _ => rfl) hsteps ?_
  exact finishes_reading (fun _ => rfl) <| .returned host_steady (unbounded_of_pure fun _ => rfl) _

/-! ## Fibonacci steps -/

/-- One Fibonacci step. -/
def next (p : Int × Int) : Int × Int := (p.1 + p.2, p.1)

theorem carries_fibStep (p : Int × Int) :
    host.Carries Routine.fibStep.prog (fibItem p) (fibItem (next p)) .null :=
  carries_prog <| finishes_reading (fun _ => rfl) <|
    finishes_setting (fun _ => rfl) <| finishes_finish _ _

theorem carries_fibState (n : Nat) (p : Int × Int) :
    host.Carries (Routine.fibState n).prog (fibItem p) (fibItem (next^[n] p)) .null := by
  induction n with
  | zero => exact carries_prog <| .returned host_steady (unbounded_of_pure fun _ => rfl) _
  | succ n ih =>
    have hopening : ∀ go : Go, (Stage.opening (.fibState (n + 1 : Nat))).resume go .null =
        Routine.program go (.fibState n) >>= fun before => pure (.yielded before .stepOn) := by
      intro go
      have hne : ((n + 1 : Nat) : Int) ≠ 0 := by omega
      have hpred : ((n + 1 : Nat) : Int) - 1 = n := by omega
      simp only [Stage.resume, hne, if_false, hpred]
    rw [Function.iterate_succ_apply']
    refine carries_prog <| .built host_steady (Routine.program_follows _) hopening
      (program_builds ih) ?_
    exact .built host_steady (Routine.program_follows _) (fun _ => rfl)
      (program_builds (carries_fibStep _)) (finishes_finish _ _)

theorem fibFor_builds (n : Nat) (p : Int × Int) :
    host.Builds (fun go => fibFor go n) (fibItem p) (fibItem (next^[n] p)) .null := by
  have hsteps := forEach_builds_iterate host_steady (does_making .fibStep) carries_fibStep
    (numbers 1 (n + 1)) p
  rwa [length_numbers, show ((n : Int) + 1 - 1).toNat = n by omega] at hsteps

/-- The loop inside one block: by induction on the number of steps that are left. -/
theorem finishes_loop (n : Nat) (x : Item) (p : Int × Int) :
    host.Finishes (.loop n) x (fibItem p) (fibItem (next^[n] p)) (.int (next^[n] p).1) := by
  induction n generalizing x p with
  | zero =>
    exact finishes_reading (fun _ => rfl) <|
      .returned host_steady (unbounded_of_pure fun _ => rfl) _
  | succ n ih =>
    exact finishes_reading (fun _ => rfl) <| finishes_setting (fun _ => rfl) <| ih .null (next p)

theorem carries_fibLoop (n : Nat) (p : Int × Int) :
    host.Carries (Routine.fibLoop n).prog (fibItem p) (fibItem (next^[n] p))
      (.int (next^[n] p).1) := by
  have hopening : ∀ go : Go, (Stage.opening (.fibLoop n)).resume go .null =
      (Stage.loop n).resume go .null := by
    intro go
    cases n <;> rfl
  obtain ⟨m, hm, hcarries⟩ := finishes_loop n .null p
  refine carries_prog ⟨m, ?_, hcarries⟩
  rw [does_resume_state host_steady] at hm ⊢
  simpa only [host, hopening] using hm

/-! ## Closed forms -/

/-- Several Fibonacci steps at once. -/
theorem iterate_next (n : Nat) (c p : Int) :
    next^[n] (c, p) =
      (Int.fib (n + 1) * c + Int.fib n * p, Int.fib n * c + Int.fib (n - 1) * p) := by
  induction n with
  | zero => simp
  | succ n ih =>
    have hfib : Int.fib (n + 1 + 1) = Int.fib n + Int.fib (n + 1) := Int.fib_add_two n
    have hfib' : Int.fib (n + 1) = Int.fib (n - 1) + Int.fib n := by
      have := Int.fib_add_two (n - 1)
      rwa [show (n : Int) - 1 + 2 = n + 1 by ring, show (n : Int) - 1 + 1 = n by ring] at this
    rw [Function.iterate_succ_apply', ih, next]
    push_cast
    rw [hfib, show (n : Int) + 1 - 1 = n by ring]
    ext
    · linear_combination -p * hfib'
    · rfl

theorem iterate_next_start (n : Nat) : (next^[n] fibStart).1 = Int.fib n := by
  rw [fibStart, iterate_next]
  simp

/-! ## Runs -/

/-- With a large enough bound, the run ends with `v`. -/
abbrev EndsWith (run : Go → Act Unit Item) (v : Item) : Prop :=
  Run.Settles (fun b => run (performer b)) () (.done v) ()

section Run

variable {build : Go → Act Unit Item} (hbuild : Follows build)

include hbuild

theorem runFrom_follows (s : Item) : Follows fun go : Go => runFrom go (build go) s :=
  hbuild.bind fun d => (Follows.const (d.asComp "run")).bind fun c => c.run_follows (some s)

variable {s s' v : Item} (hb : host.Builds build s s' v)

include hb

theorem unbounded_runFrom :
    host.unbounded (fun go => runFrom go (build go) s) = pure (.tuple [s', v]) := by
  obtain ⟨m, hm, hcarries⟩ := hb
  refine (unbounded_bind host_steady hbuild fun d =>
    (Follows.const (d.asComp "run")).bind fun c => c.run_follows (some s)).trans ?_
  rw [hm, pure_bind]
  refine (does_runState host_steady m s).trans ?_
  rw [hcarries, pure_bind]
  rfl

theorem endsWith_runFrom : EndsWith (fun go => runFrom go (build go) s) (.tuple [s', v]) :=
  (Run.settles_done (host_steady.rising (runFrom_follows hbuild s))).mpr
    (congrFun (unbounded_runFrom hbuild hb) ())

/-- A run, and then something that hands out no tasks. -/
theorem endsWith_runFrom_bind {w : Item} {k : Item → Act Unit Item}
    (hk : k (.tuple [s', v]) = pure w) :
    EndsWith (fun go => runFrom go (build go) s >>= k) w := by
  have hrun := runFrom_follows hbuild s
  have hlast : ∀ d, Follows fun _ : Go => k d := fun d => Follows.const (k d)
  refine (Run.settles_done (host_steady.rising (hrun.bind hlast))).mpr ?_
  refine (congrFun (unbounded_bind host_steady hrun hlast) ()).trans ?_
  rw [unbounded_runFrom hbuild hb, pure_bind, unbounded_of_pure fun _ => hk]
  rfl

end Run

theorem endsWith_currentAfter {build : Go → Act Unit Item} (hbuild : Follows build) {n : Nat}
    {v : Item} (hb : host.Builds build (fibItem fibStart) (fibItem (next^[n] fibStart)) v) :
    EndsWith (fun go => currentAfter go (build go)) (.int (Int.fib n)) := by
  rw [← iterate_next_start]
  exact endsWith_runFrom_bind hbuild hb rfl

/-- From every state and for every size, the counting programs compute their closed forms. -/
theorem counting_closed_forms :
    (∀ n s : Int, EndsWith (fun go => runFrom go (countUp go n) (.int s))
      (.tuple [.int (s + max n 0), .int (s + max n 0)])) ∧
    (∀ (n : Nat) (c p : Int),
      let final := fibItem
        (Int.fib (n + 1) * c + Int.fib n * p, Int.fib n * c + Int.fib (n - 1) * p)
      EndsWith (fun go => runFrom go (fibState go n) (fibItem (c, p))) (.tuple [final, .null]) ∧
      EndsWith (fun go => runFrom go (fibFor go n) (fibItem (c, p))) (.tuple [final, .null])) ∧
    ∀ n : Nat, EndsWith (fun go => computeFib go n) (.int (Int.fib n)) ∧
      EndsWith (fun go => computeFibFor go n) (.int (Int.fib n)) ∧
      EndsWith (fun go => fibLoop go n) (.int (Int.fib n)) := by
  have hstate (n : Nat) : Follows fun go : Go => fibState go n := Routine.program_follows _
  have hfor (n : Nat) : Follows fun go : Go => fibFor go n := forEach_follows _ _ _
  refine ⟨fun n s => ?_, fun n c p => ⟨?_, ?_⟩, fun n => ⟨?_, ?_, ?_⟩⟩
  · exact endsWith_runFrom (Routine.program_follows _) (countUp_builds n s)
  · rw [← iterate_next]
    exact endsWith_runFrom (hstate n) (program_builds (carries_fibState n (c, p)))
  · rw [← iterate_next]
    exact endsWith_runFrom (hfor n) (fibFor_builds n (c, p))
  · exact endsWith_currentAfter (hstate n) (program_builds (carries_fibState n fibStart))
  · exact endsWith_currentAfter (hfor n) (fibFor_builds n fibStart)
  · rw [← iterate_next_start]
    exact endsWith_runFrom_bind (Routine.program_follows _)
      (program_builds (carries_fibLoop n fibStart)) rfl

end EffectCalculus.Counter
