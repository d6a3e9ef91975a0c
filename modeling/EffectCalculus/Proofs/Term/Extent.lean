import EffectCalculus.Proofs.Term.Avoiding
import EffectCalculus.Proofs.Term.Place

/-!
# The extent of capture avoidance

Capture-avoiding substitution calls itself on a body that it has renamed before, by a call of its
own, and looks for the new name by adding primes. Both come to an end, and the result is as large as
it has to be: no node is added or lost by renaming.

* `FewestPrimes`, `freshName_fewestPrimes`: **a new name has the fewest primes**;
* `Ends`, `Avoids.exists_ends`: the recursion call by call, and that it ends;
* `size`, `Nameless.size_replace`: the number of nodes, which does not depend on names;
* `substAvoiding_total`: the substitution has a result, and how large it is.
-/

namespace EffectCalculus

/-! ## New names -/

namespace Term

/-- The name with so many primes behind it. -/
def withPrimes (name : String) : Nat → String
  | 0 => name
  | k + 1 => withPrimes name k ++ "'"

theorem withPrimes_prime (name : String) (k : Nat) :
    withPrimes (name ++ "'") k = withPrimes name (k + 1) := by
  induction k with
  | zero => rfl
  | succ k ih => simp only [withPrimes, ih]

/-- The loop has gone past taken names only, by one prime at a time. -/
theorem exists_primed_eq (taken : List String) (tries : Nat) (name : String) :
    ∃ k, primed taken tries name = withPrimes name k ∧ ∀ j < k, withPrimes name j ∈ taken := by
  induction tries generalizing name with
  | zero => exact ⟨0, rfl, fun j hj => absurd hj (Nat.not_lt_zero j)⟩
  | succ tries ih =>
    unfold primed
    split
    · next hmem =>
      obtain ⟨k, hk, hlower⟩ := ih (name ++ "'")
      refine ⟨k + 1, hk.trans (withPrimes_prime name k), fun j hj => ?_⟩
      cases j with
      | zero => exact hmem
      | succ j => exact withPrimes_prime name j ▸ hlower j (Nat.lt_of_succ_lt_succ hj)
    · exact ⟨0, rfl, fun j hj => absurd hj (Nat.not_lt_zero j)⟩

/-- `z` is `y` with the fewest primes, at least one, that make it free neither in the body `b` nor
in the replacement `r`. -/
def FewestPrimes (r b : Term) (y z : String) : Prop :=
  ∃ k, 1 ≤ k ∧ z = withPrimes y k ∧ ¬ b.IsFree z ∧ ¬ r.IsFree z ∧
    ∀ j, 1 ≤ j → j < k → b.IsFree (withPrimes y j) ∨ r.IsFree (withPrimes y j)

theorem freshName_fewestPrimes {r b : Term} {rs bs : List String} (hr : r.free = .ok rs)
    (hb : b.free = .ok bs) (y : String) : FewestPrimes r b y (freshName (rs ++ bs) y) := by
  obtain ⟨k, hk, hlower⟩ := exists_primed_eq (rs ++ bs) (rs ++ bs).length (y ++ "'")
  have fresh := freshName_not_mem (rs ++ bs) y
  rw [List.mem_append, not_or] at fresh
  refine ⟨k + 1, Nat.succ_pos k, hk.trans (withPrimes_prime y k), ?_, ?_, fun j hj hjk => ?_⟩
  · rw [isFree_iff_mem hb]
    exact fresh.2
  · rw [isFree_iff_mem hr]
    exact fresh.1
  · obtain ⟨j, rfl⟩ := Nat.exists_eq_succ_of_ne_zero (Nat.ne_of_gt hj)
    have hmem := hlower j (Nat.lt_of_succ_lt_succ hjk)
    rw [withPrimes_prime, List.mem_append] at hmem
    rw [isFree_iff_mem hb, isFree_iff_mem hr]
    exact hmem.symm

/-! ## The recursion -/

/-- Capture avoidance has nothing to do here and leaves the term to plain substitution. -/
def LeftPlain (x : String) : Term → Prop
  | .var _ _ | .num _ _ | .atom _ => True
  | .abs _ y _ => y = x
  | .app _ _ _ | .add _ _ _ => False

/-- `Ends n x r e t`: the recursion, with no bound on it, ends after `n` calls and has turned `e`
into `t` by then. A call on a binder that captures makes two further ones, the second on what the
first has made of the body. -/
inductive Ends : Nat → String → Term → Term → Term → Prop
  | plain {x : String} {r e t : Term} (he : e.LeftPlain x) (ht : subst x r e = .ok t) :
      Ends 1 x r e t
  | app {m n : Nat} {x : String} {r : Term} {pos : Pos} {f f' a a' : Term} (hf : Ends m x r f f')
      (ha : Ends n x r a a') : Ends (m + n + 1) x r (.app pos f a) (.app pos f' a')
  | add {m n : Nat} {x : String} {r : Term} {pos : Pos} {l l' e e' : Term} (hl : Ends m x r l l')
      (he : Ends n x r e e') : Ends (m + n + 1) x r (.add pos l e) (.add pos l' e')
  | kept {n : Nat} {x : String} {r : Term} {pos : Pos} {y : String} {b b' : Term} (hy : y ≠ x)
      (harmless : ¬ (r.IsFree y ∧ b.IsFree x)) (hb : Ends n x r b b') :
      Ends (n + 1) x r (.abs pos y b) (.abs pos y b')
  | renamed {m n : Nat} {x : String} {r : Term} {pos : Pos} {y z : String} {b b₁ b₂ : Term}
      (hy : y ≠ x) (captures : r.IsFree y ∧ b.IsFree x) (fewest : FewestPrimes r b y z)
      (rename : Ends m y (.var pos z) b b₁) (replace : Ends n x r b₁ b₂) :
      Ends (m + n + 1) x r (.abs pos y b) (.abs pos z b₂)

theorem Avoids.exists_ends {x : String} {r e t : Term} (h : Avoids x r e t) :
    ∃ n, Ends n x r e t := by
  induction h with
  | hit => exact ⟨1, .plain trivial (by simp [subst])⟩
  | miss hy => exact ⟨1, .plain trivial (by simp [subst, hy])⟩
  | num => exact ⟨1, .plain trivial rfl⟩
  | app _ _ ihf iha =>
    obtain ⟨m, hf⟩ := ihf
    obtain ⟨n, ha⟩ := iha
    exact ⟨m + n + 1, .app hf ha⟩
  | add _ _ ihl ihe =>
    obtain ⟨m, hl⟩ := ihl
    obtain ⟨n, he⟩ := ihe
    exact ⟨m + n + 1, .add hl he⟩
  | shadowed => exact ⟨1, .plain rfl subst_abs_self⟩
  | kept hy harmless _ ih =>
    obtain ⟨n, hb⟩ := ih
    exact ⟨n + 1, .kept hy harmless hb⟩
  | renamed hy hrs hbs captures _ _ ih₁ ih₂ =>
    obtain ⟨m, rename⟩ := ih₁
    obtain ⟨n, replace⟩ := ih₂
    rw [← isFree_iff_mem hrs, ← isFree_iff_mem hbs] at captures
    exact ⟨m + n + 1, .renamed hy captures (freshName_fewestPrimes hrs hbs _) rename replace⟩

end Term

/-! ## Size -/

namespace Nameless

/-- The number of nodes. -/
def size : Nameless → Nat
  | .bound _ | .free _ | .num _ | .atom _ => 1
  | .app f a => f.size + a.size + 1
  | .abs b => b.size + 1
  | .add l r => l.size + r.size + 1

/-- The number of places where the name is free. -/
def occurrences (x : String) : Nameless → Nat
  | .free y => if y = x then 1 else 0
  | .bound _ | .num _ | .atom _ => 0
  | .app f a => f.occurrences x + a.occurrences x
  | .abs b => b.occurrences x
  | .add l r => l.occurrences x + r.occurrences x

theorem size_pos (t : Nameless) : 0 < t.size := by
  cases t <;> exact Nat.succ_pos _

/-- Each occurrence is one node before, and as many as the replacement has afterwards. -/
theorem size_replace (x : String) (s t : Nameless) :
    (t.replace x s).size = t.size + t.occurrences x * (s.size - 1) := by
  induction t with
  | bound | num | atom => simp [replace, size, occurrences]
  | free y =>
    have := s.size_pos
    by_cases h : y = x
    · simp only [replace, size, occurrences, h, ↓reduceIte]
      omega
    · simp [replace, size, occurrences, h]
  | app f a ihf iha =>
    simp only [replace, size, occurrences, ihf, iha, Nat.add_mul]
    omega
  | abs b ih =>
    simp only [replace, size, occurrences, ih]
    omega
  | add l r ihl ihr =>
    simp only [replace, size, occurrences, ihl, ihr, Nat.add_mul]
    omega

end Nameless

namespace Term

variable {e f a b l r : Term} {pos : Pos} {y : String}

/-- The number of nodes. -/
def size (e : Term) : Nat := e.parts.length

theorem size_app : (app pos f a).size = f.size + a.size + 1 := by
  simp [size, parts_app]

theorem size_abs : (abs pos y b).size = b.size + 1 := by
  simp [size, parts_abs]

theorem size_add : (add pos l r).size = l.size + r.size + 1 := by
  simp [size, parts_add]

theorem size_namelessIn (scope : List String) (e : Term) :
    (e.namelessIn scope).size = e.size := by
  induction e generalizing scope with
  | var pos x =>
    unfold namelessIn
    split <;> rfl
  | num | atom => rfl
  | app pos f a ihf iha => simp only [namelessIn, Nameless.size, size_app, ihf, iha]
  | abs pos y b ih => simp only [namelessIn, Nameless.size, size_abs, ih]
  | add pos l r ihl ihr => simp only [namelessIn, Nameless.size, size_add, ihl, ihr]

/-- A name is free in the form as often as it is listed among the free occurrences, unless one of
the binders around the term has it. -/
theorem occurrences_namelessIn {xs : List String} (he : e.WellFormed) (hxs : e.free = .ok xs)
    (x : String) (scope : List String) :
    (e.namelessIn scope).occurrences x = if x ∈ scope then 0 else xs.count x := by
  induction e generalizing scope xs with
  | var pos y =>
    cases hxs
    by_cases hy : y ∈ scope
    · obtain ⟨i, hi⟩ := Option.isSome_iff_exists.mp (List.isSome_idxOf?.mpr hy)
      by_cases hx : x ∈ scope
      · simp [namelessIn, hi, Nameless.occurrences, hx]
      · have hyx : y ≠ x := fun h => hx (h ▸ hy)
        simp [namelessIn, hi, Nameless.occurrences, hx, hyx]
    · have hi := List.idxOf?_eq_none_iff.mpr hy
      by_cases hyx : y = x
      · subst hyx
        simp [namelessIn, hi, Nameless.occurrences, hy]
      · simp [namelessIn, hi, Nameless.occurrences, hyx]
  | num =>
    cases hxs
    simp [namelessIn, Nameless.occurrences]
  | atom => exact he.elim
  | app pos f a ihf iha =>
    obtain ⟨fs, hfs⟩ := exists_free he.1
    obtain ⟨as, has⟩ := exists_free he.2
    simp only [free_app, hfs, has, bind, Except.bind, pure, Except.pure, Except.ok.injEq] at hxs
    subst hxs
    simp only [namelessIn, Nameless.occurrences, ihf he.1 hfs, iha he.2 has, List.count_append]
    split <;> rfl
  | add pos l r ihl ihr =>
    obtain ⟨ls, hls⟩ := exists_free he.1
    obtain ⟨rs, hrs⟩ := exists_free he.2
    simp only [free_add, hls, hrs, bind, Except.bind, pure, Except.pure, Except.ok.injEq] at hxs
    subst hxs
    simp only [namelessIn, Nameless.occurrences, ihl he.1 hls, ihr he.2 hrs, List.count_append]
    split <;> rfl
  | abs pos y b ih =>
    obtain ⟨bs, hbs⟩ := exists_free (e := b) he
    simp only [free_abs, hbs, bind, Except.bind, pure, Except.pure, Except.ok.injEq] at hxs
    subst hxs
    simp only [namelessIn, Nameless.occurrences, ih he hbs]
    by_cases hxy : x = y
    · subst hxy
      have hnone : (bs.filter (· ≠ x)).count x = 0 := List.count_eq_zero.mpr (by simp)
      rw [hnone]
      simp
    · simp [hxy, List.count_filter]

/-- The result has the nodes of the term, with those of a copy of the replacement in the place of
each free occurrence of the name. Renaming does not show in the nameless form, so it adds none. -/
theorem Avoids.size_eq {x : String} {r e t : Term} {xs : List String} (h : Avoids x r e t)
    (hr : r.WellFormed) (he : e.WellFormed) (hxs : e.free = .ok xs) :
    t.size = e.size + xs.count x * (r.size - 1) := by
  have hform : t.nameless = e.nameless.replace x r.nameless := by
    rw [nameless_replace, nameless_eq_read t, nameless_eq_read r]
    exact h.read hr he Nameless.free
  calc t.size
      = t.nameless.size := (size_namelessIn [] t).symm
    _ = e.nameless.size + e.nameless.occurrences x * (r.nameless.size - 1) := by
        rw [hform, Nameless.size_replace]
    _ = e.size + xs.count x * (r.size - 1) := by
        simp only [nameless, size_namelessIn, occurrences_namelessIn he hxs, List.not_mem_nil,
          ↓reduceIte]

/-- **Capture-avoiding substitution is total.** In terms without atoms the recursion ends, after
finitely many calls and without an error. Wherever it renames a binder on its way, it takes the name
with the fewest primes, at least one, that is free neither in the body nor in the replacement. The
result has the nodes of the term, with those of a copy of the replacement in the place of each free
occurrence of the name. -/
theorem substAvoiding_total (x : String) {r e : Term} (hr : r.WellFormed) (he : e.WellFormed) :
    ∃ t n xs, substAvoiding x r e = .ok t ∧ Ends n x r e t ∧ e.free = .ok xs ∧
      t.size = e.size + xs.count x * (r.size - 1) := by
  obtain ⟨t, ht, h⟩ := exists_avoids x hr he
  obtain ⟨n, hn⟩ := h.exists_ends
  obtain ⟨xs, hxs⟩ := exists_free he
  exact ⟨t, n, xs, ht, hn, hxs, h.size_eq hr he hxs⟩

/-- The binder gets three primes, since one is taken by the body and two by the replacement. The
replacement has three nodes, one of them in the place of the name. -/
theorem substAvoiding_total_third_prime :
    let r : Term := .app ⟨1, 0⟩ (.var ⟨1, 1⟩ "y") (.var ⟨1, 2⟩ "y''")
    let b : Term := .app ⟨0, 1⟩ (.var ⟨0, 2⟩ "x") (.app ⟨0, 3⟩ (.var ⟨0, 4⟩ "y") (.var ⟨0, 5⟩ "y'"))
    let e : Term := .abs ⟨0, 0⟩ "y" b
    r.WellFormed ∧ e.WellFormed ∧ FewestPrimes r b "y" "y'''" ∧
      ∃ b' n, substAvoiding "x" r e = .ok (.abs ⟨0, 0⟩ "y'''" b') ∧
        Ends n "x" r e (.abs ⟨0, 0⟩ "y'''" b') ∧ (abs ⟨0, 0⟩ "y'''" b').size = 8 := by
  intro r b e
  have hr : r.WellFormed := by decide
  have he : e.WellFormed := by decide
  have fewest : FewestPrimes r b "y" "y'''" := freshName_fewestPrimes (r := r) (b := b) rfl rfl "y"
  obtain ⟨t, n, xs, ht, hn, hxs, hsize⟩ := substAvoiding_total "x" hr he
  cases hxs
  cases ht
  exact ⟨hr, he, fewest, _, n, rfl, hn, hsize⟩

end Term

end EffectCalculus
