import EffectCalculus.Term.Free
import EffectCalculus.Term.Subst

/-!
# Scope

The names that a term leaves free, and how plain substitution goes through a term.

* `IsFree`, `Closed`: being one of the free variables, and having none;
* `exists_free`: a term without atoms has its free variables listed;
* `isFree_abs`, `isFree_app`, …: the free variables of a term from those of its parts;
* `subst_abs`, `subst_app`, …: the result of substitution from the results in the parts;
* `exists_subst`: substitution in a term without atoms has a result.
-/

namespace EffectCalculus.Term

variable {x : String} {r e f a b l : Term} {pos : Pos}

/-! ## Free variables -/

theorem free_abs {y : String} :
    (abs pos y b).free = b.free >>= fun bs => pure (bs.filter (· ≠ y)) := rfl

theorem free_app :
    (app pos f a).free = f.free >>= fun fs => a.free >>= fun as => pure (fs ++ as) := rfl

theorem free_add :
    (add pos l r).free = l.free >>= fun ls => r.free >>= fun rs => pure (ls ++ rs) := rfl

/-- `x` is one of the free variables of `e`. -/
def IsFree (e : Term) (x : String) : Prop := ∃ xs, e.freeVars = .ok xs ∧ x ∈ xs

def Closed (e : Term) : Prop := ∀ x, ¬ e.IsFree x

theorem isFree_iff_mem {xs : List String} (h : e.free = .ok xs) : e.IsFree x ↔ x ∈ xs := by
  have hv : e.freeVars = .ok (xs.foldr insertName []) := by
    simp [freeVars, h, bind, Except.bind, pure, Except.pure]
  constructor
  · rintro ⟨ys, hy, hx⟩
    exact (mem_freeVars h hy x).mp hx
  · intro hx
    exact ⟨_, hv, (mem_freeVars h hv x).mpr hx⟩

theorem exists_free (h : e.WellFormed) : ∃ xs, e.free = .ok xs := by
  induction e with
  | var pos y => exact ⟨[y], rfl⟩
  | num pos n => exact ⟨[], rfl⟩
  | atom => exact h.elim
  | abs pos y b ih =>
    obtain ⟨bs, hb⟩ := ih h
    exact ⟨bs.filter (· ≠ y), by simp [free_abs, hb, bind, Except.bind, pure, Except.pure]⟩
  | app pos f a ihf iha =>
    obtain ⟨fs, hf⟩ := ihf h.1
    obtain ⟨as, ha⟩ := iha h.2
    exact ⟨fs ++ as, by simp [free_app, hf, ha, bind, Except.bind, pure, Except.pure]⟩
  | add pos l r ihl ihr =>
    obtain ⟨ls, hl⟩ := ihl h.1
    obtain ⟨rs, hr⟩ := ihr h.2
    exact ⟨ls ++ rs, by simp [free_add, hl, hr, bind, Except.bind, pure, Except.pure]⟩

theorem exists_freeVars (h : e.WellFormed) : ∃ xs, e.freeVars = .ok xs := by
  obtain ⟨xs, hxs⟩ := exists_free h
  exact ⟨xs.foldr insertName [], by simp [freeVars, hxs, bind, Except.bind, pure, Except.pure]⟩

@[simp] theorem isFree_var {y : String} : (var pos y).IsFree x ↔ x = y := by
  rw [isFree_iff_mem rfl, List.mem_singleton]

@[simp] theorem not_isFree_num {n : Int} : ¬ (num pos n).IsFree x := by
  rw [isFree_iff_mem rfl]
  exact List.not_mem_nil

@[simp] theorem isFree_abs {y : String} : (abs pos y b).IsFree x ↔ b.IsFree x ∧ x ≠ y := by
  cases h : b.free with
  | error err => simp [IsFree, freeVars, free_abs, h, bind, Except.bind]
  | ok bs =>
    have ha : (abs pos y b).free = .ok (bs.filter (· ≠ y)) := by
      simp [free_abs, h, bind, Except.bind, pure, Except.pure]
    rw [isFree_iff_mem ha, isFree_iff_mem h]
    simp

theorem isFree_app (hf : f.WellFormed) (ha : a.WellFormed) :
    (app pos f a).IsFree x ↔ f.IsFree x ∨ a.IsFree x := by
  obtain ⟨fs, hfs⟩ := exists_free hf
  obtain ⟨as, has⟩ := exists_free ha
  have h : (app pos f a).free = .ok (fs ++ as) := by
    simp [free_app, hfs, has, bind, Except.bind, pure, Except.pure]
  rw [isFree_iff_mem h, isFree_iff_mem hfs, isFree_iff_mem has, List.mem_append]

theorem isFree_add (hl : l.WellFormed) (hr : r.WellFormed) :
    (add pos l r).IsFree x ↔ l.IsFree x ∨ r.IsFree x := by
  obtain ⟨ls, hls⟩ := exists_free hl
  obtain ⟨rs, hrs⟩ := exists_free hr
  have h : (add pos l r).free = .ok (ls ++ rs) := by
    simp [free_add, hls, hrs, bind, Except.bind, pure, Except.pure]
  rw [isFree_iff_mem h, isFree_iff_mem hls, isFree_iff_mem hrs, List.mem_append]

/-! ## Plain substitution -/

theorem subst_app {f' a' : Term} (hf : subst x r f = .ok f') (ha : subst x r a = .ok a') :
    subst x r (.app pos f a) = .ok (.app pos f' a') := by
  simp [subst, hf, ha, bind, Except.bind, pure, Except.pure]

theorem subst_add {l' e' : Term} (hl : subst x r l = .ok l') (he : subst x r e = .ok e') :
    subst x r (.add pos l e) = .ok (.add pos l' e') := by
  simp [subst, hl, he, bind, Except.bind, pure, Except.pure]

theorem subst_abs {y : String} {b' : Term} (hy : y ≠ x) (hb : subst x r b = .ok b') :
    subst x r (.abs pos y b) = .ok (.abs pos y b') := by
  simp [subst, hy, hb, bind, Except.bind, pure, Except.pure]

theorem subst_abs_self : subst x r (.abs pos x b) = .ok (.abs pos x b) := by
  simp [subst]

theorem exists_subst (x : String) (hr : r.WellFormed) (he : e.WellFormed) :
    ∃ t, subst x r e = .ok t ∧ t.WellFormed := by
  induction e with
  | var pos y =>
    by_cases h : y = x
    · exact ⟨r, by simp [subst, h], hr⟩
    · exact ⟨.var pos y, by simp [subst, h], trivial⟩
  | num pos n => exact ⟨.num pos n, rfl, trivial⟩
  | atom => exact he.elim
  | abs pos y b ih =>
    by_cases h : y = x
    · subst h
      exact ⟨_, subst_abs_self, he⟩
    · obtain ⟨b', hb, hb'⟩ := ih he
      exact ⟨_, subst_abs h hb, hb'⟩
  | app pos f a ihf iha =>
    obtain ⟨f', hf, hf'⟩ := ihf he.1
    obtain ⟨a', ha, ha'⟩ := iha he.2
    exact ⟨_, subst_app hf ha, hf', ha'⟩
  | add pos l r' ihl ihr =>
    obtain ⟨l', hl, hl'⟩ := ihl he.1
    obtain ⟨r'', hr'', hr'⟩ := ihr he.2
    exact ⟨_, subst_add hl hr'', hl', hr'⟩

end EffectCalculus.Term
