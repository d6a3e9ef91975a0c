import EffectCalculus.Effect.Engine
import EffectCalculus.Eval.Watch

/-!
# Evaluations as actions

An evaluation as an action of effect programs, with the log as the world. An error of the evaluation
is one that a callback raises.

* `Eval.action`, `Eval.action_bind`: sequencing is kept;
* `Eval.action_eq_fault`: where the error of an action comes from;
* `Eval.told`: an action with its result put as something else.
-/

namespace EffectCalculus.Eval

open Run

variable {α β γ : Type}

def action (m : Eval α) : Act (List Note) α := fun log =>
  match m log with
  | (.done a, log) => (.done a, log)
  | (.fault err, log) => (.fault (.raised err.message), log)
  | (.unfinished, log) => (.unfinished, log)

@[simp] theorem action_pure (a : α) : action (pure a) = pure a := rfl

theorem action_bind (m : Eval α) (k : α → Eval β) :
    action (m >>= k) = action m >>= fun a => action (k a) := by
  funext log
  rcases h : m log with ⟨a | err | _, log'⟩
  · have hm : action m log = (.done a, log') := by simp only [action, h]
    rw [Run.bind_done hm]
    simp only [action, Run.bind_done h]
  · have hm : action m log = (.fault (.raised err.message), log') := by simp only [action, h]
    rw [Run.bind_fault hm]
    simp only [action, Run.bind_fault h]
  · have hm : action m log = (.unfinished, log') := by simp only [action, h]
    rw [Run.bind_unfinished hm]
    simp only [action, Run.bind_unfinished h]

theorem action_below {m m' : Eval α} (h : Below m m') : Below (action m) (action m') := by
  intro log hend
  have hm : (m log).1 ≠ .unfinished := by
    intro hu
    apply hend
    simp only [action]
    split <;> simp_all
  simp only [action, h log hm]

/-- Where the error of an action comes from. -/
theorem action_eq_fault {m : Eval α} {log log' : List Note} {err : EffectError}
    (h : action m log = (.fault err, log')) :
    ∃ x : EvalError, m log = (.fault x, log') ∧ err = .raised x.message := by
  rcases hm : m log with ⟨a | x | _, log₁⟩ <;> simp only [action, hm] at h <;> cases h
  exact ⟨x, rfl, rfl⟩

/-- The action, with a function of its result. -/
def told (f : α → β) (m : Eval α) : Act (List Note) β := do
  let a ← m.action
  return f a

theorem told_bind (f : β → γ) (m : Eval α) (k : α → Eval β) :
    told f (m >>= k) = m.action >>= fun a => told f (k a) := by
  simp only [told, action_bind, bind_assoc]

theorem told_below (f : α → β) {m m' : Eval α} (h : Below m m') :
    Below (told f m) (told f m') :=
  (action_below h).bind fun _ => Below.refl _

end EffectCalculus.Eval
