import EffectCalculus.Bindings.History
import Mathlib.Data.List.Induction

/-!
# What bindings remember

Bindings are the outcome of a chain of extensions. Of the chain they keep which name came first and
what each name was bound to last, and a history may go on from them in several ways.

* `Bindings.Records`, `Bindings.records_ofList`: **bindings record their chain**;
* `Bindings.grow_eq_some`, `Bindings.growAll_cons`: what a step does, and a run of steps;
* `Bindings.prefix_of_growAll`, `Bindings.history_take`: what was made is never changed;
* `Bindings.Chain`, `Bindings.Chain.getElem?_eq`, `Bindings.exists_chain`: the chain that led to the
  bindings with a given number;
* `Bindings.Timely`, `Bindings.exists_history`, `Bindings.timely_of_history`: a history is completed
  exactly if each step extends bindings made before it.
-/

namespace EffectCalculus.Bindings

variable {α : Type}

/-! ## Chains of extensions -/

/-- Each name of the chain is bound once, in the order in which the names came first, and to the
value that came last with it. -/
structure Records (bs : Bindings α) (chain : List (String × α)) : Prop where
  distinct : bs.Distinct
  names_eq : bs.names = (chain.map Prod.fst).eraseDups
  find?_eq : ∀ x, bs.find? x = chain.reverse.lookup x

theorem ofList_append_singleton (chain : List (String × α)) (x : String) (v : α) :
    ofList (chain ++ [(x, v)]) = (ofList chain).extend x v := by
  simp [ofList, List.foldl_append]

theorem names_ofList (chain : List (String × α)) :
    (ofList chain).names = (chain.map Prod.fst).eraseDups := by
  induction chain using List.reverseRecOn with
  | nil => rfl
  | append_singleton chain p ih =>
    obtain ⟨x, v⟩ := p
    rw [ofList_append_singleton, names_extend, ih, List.map_append, List.eraseDups_append]
    by_cases hx : x ∈ chain.map Prod.fst
    · simp [hx, List.removeAll]
    · simp [hx, List.removeAll, List.eraseDups_cons]

theorem find?_ofList (chain : List (String × α)) (x : String) :
    (ofList chain).find? x = chain.reverse.lookup x := by
  induction chain using List.reverseRecOn with
  | nil => rfl
  | append_singleton chain p ih =>
    obtain ⟨y, v⟩ := p
    rw [ofList_append_singleton, List.reverse_append]
    by_cases hx : x = y
    · subst hx
      rw [find?_extend_self]
      exact List.lookup_cons_self.symm
    · have hbeq : (x == y) = false := by simp [hx]
      rw [find?_extend_of_ne _ _ hx, ih]
      simp [List.lookup_cons, hbeq]

theorem records_ofList (chain : List (String × α)) : (ofList chain).Records chain :=
  ⟨distinct_ofList chain, names_ofList chain, find?_ofList chain⟩

/-! ## Steps -/

variable {made made' : List (Bindings α)} {start : List (String × α)} {s : Extension α}
  {steps : List (Extension α)}

theorem grow_eq_some :
    grow made s = some made' ↔
      ∃ bs, made[s.base]? = some bs ∧ made ++ [bs.extend s.name s.value] = made' := by
  simp [grow, Option.bind_eq_some_iff]

theorem growAll_cons :
    growAll made (s :: steps) = some made' ↔
      ∃ bs, made[s.base]? = some bs ∧
        growAll (made ++ [bs.extend s.name s.value]) steps = some made' := by
  simp only [growAll, List.foldlM_cons, Option.bind_eq_bind, Option.bind_eq_some_iff, grow_eq_some]
  constructor
  · rintro ⟨_, ⟨bs, hbs, rfl⟩, hrest⟩
    exact ⟨bs, hbs, hrest⟩
  · rintro ⟨bs, hbs, hrest⟩
    exact ⟨_, ⟨bs, hbs, rfl⟩, hrest⟩

/-- Nothing that was made is changed by later steps. -/
theorem prefix_of_growAll (h : growAll made steps = some made') : made <+: made' := by
  induction steps generalizing made with
  | nil =>
    cases h
    exact List.prefix_rfl
  | cons s steps ih =>
    obtain ⟨bs, -, hrest⟩ := growAll_cons.mp h
    exact (List.prefix_append made _).trans (ih hrest)

theorem length_of_growAll (h : growAll made steps = some made') :
    made'.length = made.length + steps.length := by
  induction steps generalizing made with
  | nil =>
    cases h
    rfl
  | cons s steps ih =>
    obtain ⟨bs, -, hrest⟩ := growAll_cons.mp h
    have hlength := ih hrest
    simp only [List.length_append, List.length_cons, List.length_nil] at hlength ⊢
    omega

/-- Bindings keep their number. -/
theorem getElem?_of_prefix {k : Nat} {bs : Bindings α} (h : made <+: made')
    (hk : made[k]? = some bs) : made'[k]? = some bs := by
  obtain ⟨hlt, rfl⟩ := List.getElem?_eq_some_iff.mp hk
  exact List.prefix_iff_getElem?.mp h k hlt

/-- What step number `j` has made, and that what it extends was there at that time. -/
theorem made_of_growAll (h : growAll made steps = some made') {j : Nat}
    (hs : steps[j]? = some s) :
    s.base < made.length + j ∧ ∃ bs, made'[s.base]? = some bs ∧
      made'[made.length + j]? = some (bs.extend s.name s.value) := by
  induction steps generalizing made j with
  | nil => cases hs
  | cons s' steps ih =>
    obtain ⟨bs, hbs, hrest⟩ := growAll_cons.mp h
    cases j with
    | zero =>
      cases hs
      obtain ⟨hlt, -⟩ := List.getElem?_eq_some_iff.mp hbs
      have hprefix := prefix_of_growAll hrest
      have hold : made'[s.base]? = some bs :=
        getElem?_of_prefix ((List.prefix_append made _).trans hprefix) hbs
      have hnew : made'[made.length]? = some (bs.extend s.name s.value) :=
        getElem?_of_prefix hprefix (by simp)
      exact ⟨hlt, bs, hold, hnew⟩
    | succ j =>
      have hlength : (made ++ [bs.extend s'.name s'.value]).length + j = made.length + (j + 1) := by
        simp only [List.length_append, List.length_cons, List.length_nil]
        omega
      have hmade := ih hrest (by simpa using hs)
      rwa [hlength] at hmade

theorem exists_growAll
    (h : ∀ (j : Nat) (s : Extension α), steps[j]? = some s → s.base < made.length + j) :
    ∃ made', growAll made steps = some made' := by
  induction steps generalizing made with
  | nil => exact ⟨made, rfl⟩
  | cons s steps ih =>
    have hbase : s.base < made.length := h 0 s rfl
    have hrest : ∀ j s', steps[j]? = some s' →
        s'.base < (made ++ [(made[s.base]).extend s.name s.value]).length + j := by
      intro j s' hs'
      have hlt := h (j + 1) s' (by simpa using hs')
      simp only [List.length_append, List.length_cons, List.length_nil]
      omega
    obtain ⟨made', hmade'⟩ := ih hrest
    exact ⟨made', growAll_cons.mpr ⟨_, List.getElem?_eq_getElem hbase, hmade'⟩⟩

/-! ## Histories -/

/-- Each step extends bindings that were made before it. -/
def Timely (steps : List (Extension α)) : Prop := ∀ j (h : j < steps.length), steps[j].base ≤ j

instance (steps : List (Extension α)) : Decidable (Timely steps) :=
  inferInstanceAs (Decidable (∀ j (h : j < steps.length), steps[j].base ≤ j))

theorem timely_iff :
    Timely steps ↔ ∀ (j : Nat) (s : Extension α), steps[j]? = some s → s.base ≤ j := by
  constructor
  · intro h j s hs
    obtain ⟨hj, rfl⟩ := List.getElem?_eq_some_iff.mp hs
    exact h j hj
  · intro h j hj
    exact h j _ (List.getElem?_eq_getElem hj)

theorem exists_history (start : List (String × α)) (h : Timely steps) :
    ∃ made, history start steps = some made := by
  apply exists_growAll
  intro j s hs
  have hbase := timely_iff.mp h j s hs
  simp only [List.length_cons, List.length_nil]
  omega

theorem timely_of_history (h : history start steps = some made) : Timely steps := by
  rw [timely_iff]
  intro j s hs
  have hbase := (made_of_growAll h hs).1
  simp only [List.length_cons, List.length_nil] at hbase
  omega

theorem length_of_history (h : history start steps = some made) :
    made.length = steps.length + 1 := by
  rw [length_of_growAll h, List.length_singleton, Nat.add_comm]

/-- The history up to a step has made what stands in front of the rest. -/
theorem history_take (h : history start steps = some made) (n : Nat) :
    history start (steps.take n) = some (made.take (n + 1)) := by
  have hsplit : (steps.take n ++ steps.drop n).foldlM grow [ofList start] = some made := by
    rw [List.take_append_drop]
    exact h
  rw [List.foldlM_append, Option.bind_eq_bind, Option.bind_eq_some_iff] at hsplit
  obtain ⟨earlier, hearlier, hlater⟩ := hsplit
  have hlength : earlier.length = (steps.take n).length + 1 := length_of_history hearlier
  have htake : earlier = made.take earlier.length :=
    List.prefix_iff_eq_take.mp (prefix_of_growAll hlater)
  have hall := length_of_history h
  have hsame : made.take earlier.length = made.take (n + 1) := by
    rw [List.take_eq_take_iff]
    rw [List.length_take] at hlength
    omega
  rw [← hsame, ← htake]
  exact hearlier

/-- The names and values that were bound one after the other, from the start on, to make the
bindings with the given number. -/
inductive Chain (start : List (String × α)) (steps : List (Extension α)) :
    Nat → List (String × α) → Prop
  | start : Chain start steps 0 start
  | extend {j : Nat} {s : Extension α} {chain : List (String × α)} (step : steps[j]? = some s)
      (older : Chain start steps s.base chain) :
      Chain start steps (j + 1) (chain ++ [(s.name, s.value)])

/-- The bindings with a given number are made of their chain alone, whatever else the history has
made in between. -/
theorem Chain.getElem?_eq {k : Nat} {chain : List (String × α)} (hchain : Chain start steps k chain)
    (h : history start steps = some made) : made[k]? = some (ofList chain) := by
  induction hchain with
  | start => exact getElem?_of_prefix (prefix_of_growAll h) rfl
  | @extend j s chain step _ ih =>
    obtain ⟨-, bs, hbs, hnew⟩ := made_of_growAll h step
    obtain rfl : ofList chain = bs := by simpa [hbs] using ih.symm
    rw [List.length_singleton, Nat.add_comm] at hnew
    rw [hnew, ofList_append_singleton]

theorem exists_chain (start : List (String × α)) (h : Timely steps) {k : Nat}
    (hk : k ≤ steps.length) : ∃ chain, Chain start steps k chain := by
  induction k using Nat.strongRecOn with
  | ind k ih =>
    cases k with
    | zero => exact ⟨start, .start⟩
    | succ j =>
      have hbase : steps[j].base ≤ j := h j hk
      obtain ⟨chain, hchain⟩ := ih steps[j].base (by omega) (by omega)
      exact ⟨_, .extend (List.getElem?_eq_getElem hk) hchain⟩

/-- Bindings that some history makes. -/
def Made (bs : Bindings α) : Prop :=
  ∃ start steps made, history start steps = some made ∧ bs ∈ made

theorem Made.distinct {bs : Bindings α} (h : bs.Made) : bs.Distinct := by
  obtain ⟨start, steps, made, hmade, hmem⟩ := h
  obtain ⟨k, hk, hbs⟩ := List.mem_iff_getElem.mp hmem
  have hlength := length_of_history hmade
  obtain ⟨chain, hchain⟩ := exists_chain start (timely_of_history hmade) (k := k) (by omega)
  have hlist := hchain.getElem?_eq hmade
  rw [List.getElem?_eq_getElem hk, hbs, Option.some.injEq] at hlist
  rw [hlist]
  exact distinct_ofList chain

end EffectCalculus.Bindings
