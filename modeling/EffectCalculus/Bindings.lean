/-!
# Bindings

Names with what they are bound to, in the order in which the names were first bound.

* `Bindings.extend`: a name that is bound keeps its place and a new name comes last
  (`Bindings.names_extend`), so no name occurs twice (`Bindings.distinct_extend`).
* `Bindings.find?_extend_self`, `Bindings.find?_extend_of_ne`: what is found after an extension.
* `Bindings.exists_find?`, `Bindings.mem_of_find?`: what is bound is found, and the other way round.
-/

namespace EffectCalculus

abbrev Bindings (α : Type) := List (String × α)

namespace Bindings

variable {α : Type}

def names (bs : Bindings α) : List String := bs.map Prod.fst

/-- No name is bound twice. -/
def Distinct (bs : Bindings α) : Prop := bs.names.Nodup

def find? : Bindings α → String → Option α
  | [], _ => none
  | (y, v) :: rest, x => if y = x then some v else find? rest x

/-- Binds `x` to `v`: in place if `x` is bound already, at the end if it is new. -/
def extend : Bindings α → String → α → Bindings α
  | [], x, v => [(x, v)]
  | (y, w) :: rest, x, v => if y = x then (y, v) :: rest else (y, w) :: extend rest x v

/-- Binds the given names one after the other, starting from nothing. -/
def ofList (bs : List (String × α)) : Bindings α :=
  bs.foldl (fun bs (x, v) => extend bs x v) []

@[simp] theorem find?_nil (x : String) : find? ([] : Bindings α) x = none := rfl

theorem find?_extend_self (bs : Bindings α) (x : String) (v : α) :
    (bs.extend x v).find? x = some v := by
  induction bs with
  | nil => simp [extend, find?]
  | cons b rest ih =>
    obtain ⟨y, w⟩ := b
    by_cases h : y = x <;> simp [extend, find?, h, ih]

theorem find?_extend_of_ne (bs : Bindings α) {x y : String} (v : α) (h : y ≠ x) :
    (bs.extend x v).find? y = bs.find? y := by
  induction bs with
  | nil => simp [extend, find?, Ne.symm h]
  | cons b rest ih =>
    obtain ⟨z, w⟩ := b
    by_cases hz : z = x
    · subst hz; simp [extend, find?, Ne.symm h]
    · simp [extend, find?, hz, ih]

theorem mem_of_find? {bs : Bindings α} {x : String} {v : α} (h : bs.find? x = some v) :
    (x, v) ∈ bs := by
  induction bs with
  | nil => simp at h
  | cons b rest ih =>
    obtain ⟨y, w⟩ := b
    by_cases hy : y = x
    · simp only [find?, hy, ↓reduceIte, Option.some.injEq] at h
      simp [hy, h]
    · simp only [find?, hy, ↓reduceIte] at h
      exact List.mem_cons_of_mem _ (ih h)

theorem exists_find? {bs : Bindings α} {x : String} (h : x ∈ bs.names) :
    ∃ v, bs.find? x = some v := by
  induction bs with
  | nil => simp [names] at h
  | cons b rest ih =>
    obtain ⟨y, w⟩ := b
    by_cases hy : y = x
    · exact ⟨w, by simp [find?, hy]⟩
    · have hx : x ∈ names rest := by simpa [names, Ne.symm hy] using h
      simpa [find?, hy] using ih hx

theorem mem_extend {bs : Bindings α} {x : String} {v : α} {p : String × α}
    (h : p ∈ bs.extend x v) : p = (x, v) ∨ p ∈ bs := by
  induction bs with
  | nil => simpa [extend] using h
  | cons b rest ih =>
    obtain ⟨y, w⟩ := b
    by_cases hy : y = x
    · simp only [extend, hy, ↓reduceIte, List.mem_cons] at h
      rcases h with h | h
      · exact .inl h
      · exact .inr (List.mem_cons_of_mem _ h)
    · simp only [extend, hy, ↓reduceIte, List.mem_cons] at h
      rcases h with h | h
      · exact .inr (h ▸ List.mem_cons_self)
      · exact (ih h).imp id (List.mem_cons_of_mem _)

theorem names_extend (bs : Bindings α) (x : String) (v : α) :
    (bs.extend x v).names = if x ∈ bs.names then bs.names else bs.names ++ [x] := by
  induction bs with
  | nil => simp [extend, names]
  | cons b rest ih =>
    obtain ⟨y, w⟩ := b
    by_cases h : y = x
    · simp [extend, names, h]
    · simp only [names] at ih
      by_cases hx : x ∈ rest.map Prod.fst
      · simp [extend, names, h, ih, hx]
      · simp only [hx, ↓reduceIte] at ih
        simp [extend, names, h, ih, hx, Ne.symm h]

theorem mem_names_extend {bs : Bindings α} {x y : String} {v : α} (h : y = x ∨ y ∈ bs.names) :
    y ∈ (bs.extend x v).names := by
  rw [names_extend]
  split
  · next hx =>
    rcases h with rfl | h
    · exact hx
    · exact h
  · rcases h with rfl | h
    · simp
    · simp [h]

theorem distinct_extend {bs : Bindings α} (h : bs.Distinct) (x : String) (v : α) :
    (bs.extend x v).Distinct := by
  unfold Distinct at h ⊢
  rw [names_extend]
  split
  · exact h
  · next hx =>
    rw [List.nodup_append]
    refine ⟨h, by simp, ?_⟩
    intro a ha b hb
    simp only [List.mem_singleton] at hb
    subst hb
    intro hab
    subst hab
    exact hx ha

theorem distinct_ofList (bs : List (String × α)) : (ofList bs).Distinct := by
  have keep : ∀ (bs : List (String × α)) (start : Bindings α), start.Distinct →
      Distinct (bs.foldl (fun bs (x, v) => extend bs x v) start) := by
    intro bs
    induction bs with
    | nil => exact fun _ h => h
    | cons b bs ih => exact fun start h => ih _ (distinct_extend h b.1 b.2)
  exact keep bs [] List.nodup_nil

end Bindings

end EffectCalculus
