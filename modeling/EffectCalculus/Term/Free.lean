import EffectCalculus.Error

/-!
# Free variables

* `Term.free`: the free occurrences of variables, from left to right.
* `Term.freeVars`: the free variables in increasing order, each once (`Term.mem_freeVars`).

Both report the leftmost atom.
-/

namespace EffectCalculus.Term

/-- The free occurrences of variables, from left to right. -/
def free : Term → Except EvalError (List String)
  | .var _ x => .ok [x]
  | .app _ f a => do
    let f ← f.free
    let a ← a.free
    return f ++ a
  | .abs _ x b => do
    let b ← b.free
    return b.filter (· ≠ x)
  | .num _ _ => .ok []
  | .add _ l r => do
    let l ← l.free
    let r ← r.free
    return l ++ r
  | .atom a => .error (.notExpression a)

/-- Puts a name at its place in an increasing list, once. -/
def insertName (x : String) : List String → List String
  | [] => [x]
  | y :: ys => if x < y then x :: y :: ys else if x = y then y :: ys else y :: insertName x ys

/-- The free variables in increasing order, each once. -/
def freeVars (e : Term) : Except EvalError (List String) := do
  let xs ← e.free
  return xs.foldr insertName []

theorem mem_insertName (x z : String) (ys : List String) :
    z ∈ insertName x ys ↔ z = x ∨ z ∈ ys := by
  induction ys with
  | nil => simp [insertName]
  | cons y ys ih =>
    unfold insertName
    split
    · simp
    · split
      · next h => subst h; simp
      · simp only [List.mem_cons, ih]
        exact ⟨fun h => by rcases h with h | h | h <;> simp [h],
          fun h => by rcases h with h | h | h <;> simp [h]⟩

theorem mem_freeVars {e : Term} {xs ys : List String} (hf : e.free = .ok xs)
    (hv : e.freeVars = .ok ys) (x : String) : x ∈ ys ↔ x ∈ xs := by
  have hy : xs.foldr insertName [] = ys := by
    simpa [freeVars, hf, bind, Except.bind, pure, Except.pure] using hv
  subst hy
  clear hv hf
  induction xs with
  | nil => simp
  | cons z zs ih => simp [mem_insertName, ih]

end EffectCalculus.Term
