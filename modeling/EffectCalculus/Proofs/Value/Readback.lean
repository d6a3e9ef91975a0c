import EffectCalculus.Proofs.Term.Fill
import EffectCalculus.Value.Basic

/-!
# Reading values back as terms

A value stands for a term: a number for itself, and a closure for its abstraction with the bindings
of its environment filled in. For a value that binds all that it mentions, this term is closed.

* `Value.WellScoped`: no atom inside, and every closure binds what its body mentions;
* `Value.readback`: the term that a value stands for;
* `WellScoped.readback`: it is closed;
* `subst_fill_readback`: substituting for the parameter in the body of a closure is filling with the
  extended environment.
-/

namespace EffectCalculus

open Term

namespace Value

/-- A number, or a closure that binds whatever its body mentions, to values of this kind. -/
inductive WellScoped : Value → Prop
  | num (n : Int) : WellScoped (.num n)
  | closure {env : Env} {x : String} {b : Term} (bindings : ∀ p ∈ env, WellScoped p.2)
      (body : b.WellFormed) (scope : ∀ y, b.IsFree y → y = x ∨ y ∈ env.names) :
      WellScoped (.closure env x b)

mutual
/-- The term that a value stands for. In the body of a closure, every free variable other than the
parameter is replaced by the term of its value. -/
def readback : Value → Term
  | .num n => .num Pos.none n
  | .closure env x b => (Term.abs Pos.none x b).fill (Bindings.find? (readbackEach env))
  | .atom a => .atom a

def readbackEach : List (String × Value) → List (String × Term)
  | [] => []
  | (x, v) :: rest => (x, v.readback) :: readbackEach rest
end

theorem find?_readbackEach (env : Env) (z : String) :
    Bindings.find? (readbackEach env) z = (env.find? z).map readback := by
  induction env with
  | nil => simp [readbackEach]
  | cons p rest ih =>
    obtain ⟨x, v⟩ := p
    by_cases h : x = z <;> simp [readbackEach, Bindings.find?, h, ih]

theorem exists_of_mem_readbackEach {env : Env} {p : String × Term} (h : p ∈ readbackEach env) :
    ∃ q ∈ env, p.2 = q.2.readback := by
  induction env with
  | nil => simp [readbackEach] at h
  | cons q rest ih =>
    obtain ⟨x, v⟩ := q
    simp only [readbackEach, List.mem_cons] at h
    rcases h with rfl | h
    · exact ⟨(x, v), List.mem_cons_self, rfl⟩
    · obtain ⟨q, hq, hp⟩ := ih h
      exact ⟨q, List.mem_cons_of_mem _ hq, hp⟩

/-- Bindings to closed terms fill with closed terms. -/
theorem closed_find?_readbackEach {env : Env}
    (h : ∀ p ∈ env, p.2.readback.WellFormed ∧ p.2.readback.Closed) :
    Filling.Closed (Bindings.find? (readbackEach env)) := by
  intro z t hz
  obtain ⟨q, hq, ht⟩ := exists_of_mem_readbackEach (Bindings.mem_of_find? hz)
  change t = q.2.readback at ht
  exact ht ▸ h q hq

theorem WellScoped.readback {v : Value} (h : v.WellScoped) :
    v.readback.WellFormed ∧ v.readback.Closed := by
  induction h with
  | num n => exact ⟨trivial, fun x => by simp [Value.readback]⟩
  | @closure env x b _ body scope ih =>
    have hσ := closed_find?_readbackEach ih
    have hwf : (Term.abs Pos.none x b).WellFormed := body
    refine ⟨wellFormed_fill hσ hwf, fun z hz => ?_⟩
    obtain ⟨hz, hnone⟩ := (isFree_fill hσ hwf z).mp hz
    obtain ⟨hb, hzx⟩ := isFree_abs.mp hz
    rcases scope z hb with rfl | hmem
    · exact hzx rfl
    · obtain ⟨v, hv⟩ := Bindings.exists_find? hmem
      rw [find?_readbackEach, hv] at hnone
      cases hnone

end Value

/-! ## Environments -/

/-- Every binding is to a well-scoped value. -/
def Env.WellScoped (env : Env) : Prop := ∀ p ∈ env, p.2.WellScoped

namespace Env.WellScoped

variable {env : Env}

theorem find? (h : Env.WellScoped env) {x : String} {v : Value} (hv : env.find? x = some v) :
    v.WellScoped :=
  h _ (Bindings.mem_of_find? hv)

theorem extend (h : Env.WellScoped env) (x : String) {v : Value} (hv : v.WellScoped) :
    Env.WellScoped (env.extend x v) := by
  intro p hp
  rcases Bindings.mem_extend hp with rfl | hp
  · exact hv
  · exact h p hp

theorem closed (h : Env.WellScoped env) :
    Filling.Closed (Bindings.find? (Value.readbackEach env)) :=
  Value.closed_find?_readbackEach fun p hp => (h p hp).readback

end Env.WellScoped

theorem substEach_readbackEach {env : Env} (h : Env.WellScoped env) {e : Term}
    (he : e.WellFormed) :
    e.substEach (Value.readbackEach env) =
      .ok (e.fill (Bindings.find? (Value.readbackEach env))) := by
  refine substEach_eq_fill (fun p hp => ?_) he
  obtain ⟨q, hq, hp⟩ := Value.exists_of_mem_readbackEach hp
  rw [hp]
  exact (h q hq).readback

theorem subst_fill_readback {env : Env} (h : Env.WellScoped env) {b : Term} (hb : b.WellFormed)
    (x : String) (v : Value) :
    subst x v.readback (b.fill (Filling.without (Bindings.find? (Value.readbackEach env)) x)) =
      .ok (b.fill (Bindings.find? (Value.readbackEach (env.extend x v)))) := by
  have hσ := h.closed.without x
  have hfind : (Filling.without (Bindings.find? (Value.readbackEach env)) x).orElse
      (Filling.single x v.readback) =
        Bindings.find? (Value.readbackEach (env.extend x v)) := by
    funext z
    by_cases hz : z = x
    · subst hz
      simp [Filling.orElse, Filling.without, Filling.single, Value.find?_readbackEach,
        Bindings.find?_extend_self]
    · simp [Filling.orElse, Filling.without, Filling.single, Value.find?_readbackEach, hz,
        Bindings.find?_extend_of_ne env v hz]
  rw [subst_eq_fill x _ (wellFormed_fill hσ hb), fill_fill hσ, hfind]

end EffectCalculus
