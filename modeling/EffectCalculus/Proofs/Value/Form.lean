import EffectCalculus.Proofs.Term.Instantiate
import EffectCalculus.Value.Basic

/-!
# Forms of values

A value has a nameless form too: a number is itself, and a closure is its abstraction with each name
that its environment binds standing for the form of its value. Names that the environment does not
bind stay free, so the form is defined for every value, scoped or not.

* `Value.form`, `Env.reading`: the form of a value, and what names stand for in an environment;
* `WellFormed.form_shift`: no index of a form points out of it;
* `Env.reading_extend`: extending an environment is letting one more name stand for a form.
-/

namespace EffectCalculus

open Function (update update_self update_of_ne)

/-- What the names stand for that have forms here; the others stand for themselves. -/
def Reading.ofForms (forms : Bindings Nameless) : Reading := fun z =>
  (forms.find? z).getD (.free z)

namespace Value

mutual
/-- The nameless form of a value. -/
def form : Value → Nameless
  | .num n => .num n
  | .closure env x b => .abs (b.read ((Reading.ofForms (formEach env)).under x))
  | .atom a => .atom a

def formEach : List (String × Value) → List (String × Nameless)
  | [] => []
  | (x, v) :: rest => (x, v.form) :: formEach rest
end

theorem find?_formEach (env : Env) (z : String) :
    Bindings.find? (formEach env) z = (env.find? z).map form := by
  induction env with
  | nil => simp [formEach]
  | cons p rest ih =>
    obtain ⟨x, v⟩ := p
    by_cases h : x = z <;> simp [formEach, Bindings.find?, h, ih]

end Value

namespace Env

/-- What names stand for in an environment. -/
def reading (env : Env) : Reading := Reading.ofForms (Value.formEach env)

theorem reading_of_find? {env : Env} {x : String} {v : Value} (h : env.find? x = some v) :
    Env.reading env x = v.form := by
  simp [reading, Reading.ofForms, Value.find?_formEach, h]

theorem reading_of_unbound {env : Env} {x : String} (h : env.find? x = none) :
    Env.reading env x = .free x := by
  simp [reading, Reading.ofForms, Value.find?_formEach, h]

theorem reading_extend (env : Env) (x : String) (v : Value) :
    Env.reading (env.extend x v) = update (Env.reading env) x v.form := by
  funext z
  by_cases hz : z = x
  · subst hz
    rw [reading_of_find? (Bindings.find?_extend_self env z v), update_self]
  · rw [update_of_ne hz]
    simp only [reading, Reading.ofForms, Value.find?_formEach,
      Bindings.find?_extend_of_ne env v hz]

/-- Every binding is to a well-formed value. -/
def WellFormed (env : Env) : Prop := ∀ p ∈ env, p.2.WellFormed

theorem WellFormed.find? {env : Env} (h : Env.WellFormed env) {x : String} {v : Value}
    (hv : env.find? x = some v) : v.WellFormed :=
  h _ (Bindings.mem_of_find? hv)

theorem WellFormed.extend {env : Env} (h : Env.WellFormed env) (x : String) {v : Value}
    (hv : v.WellFormed) : Env.WellFormed (env.extend x v) := by
  intro p hp
  rcases Bindings.mem_extend hp with rfl | hp
  · exact hv
  · exact h p hp

/-- Forms in which no index points out make readings in which none does. -/
theorem reading_shift {env : Env} (h : ∀ p ∈ env, ∀ c, p.2.form.shift c = p.2.form) (z : String)
    (c : Nat) : (Env.reading env z).shift c = Env.reading env z := by
  cases hz : env.find? z with
  | none =>
    rw [reading_of_unbound hz]
    rfl
  | some v =>
    rw [reading_of_find? hz]
    exact h _ (Bindings.mem_of_find? hz) c

end Env

theorem Value.form_closure (env : Env) (x : String) (b : Term) :
    (Value.closure env x b).form = .abs (b.read ((Env.reading env).under x)) := rfl

theorem Value.WellFormed.form_shift {v : Value} (h : v.WellFormed) (c : Nat) :
    v.form.shift c = v.form := by
  induction h generalizing c with
  | num => rfl
  | @closure env x b _ _ ih =>
    have hφ := Env.reading_shift fun p hp c => ih p hp c
    have hu : (fun z => ((Env.reading env).under x z).shift (c + 1)) =
        (Env.reading env).under x := by
      funext z
      by_cases hz : z = x
      · simp [Reading.under, hz, Nameless.shift]
      · simp [Reading.under, hz, Nameless.shift_shift (Nat.zero_le c), hφ z c]
    rw [Value.form_closure, Nameless.shift, ← Term.read_shift, hu]

end EffectCalculus
