import EffectCalculus.Effect.Class
import EffectCalculus.Proofs.Text.Boundary

/-!
# Names of effects

A specialisation is named after what it was made from, with its base in brackets behind it, and both
may be specialisations themselves. Such a name can be read in one way only: it begins with a word of
letters, and every bracket after it closes where the name inside of it ends.

* `Effect.word`, `Effect.bases`: what a name begins with, and what stands in brackets behind it;
* `Effect.Readable`, `Effect.readable`: **a name is read in one way**, up to where a bracket closes;
* `Effect.name_injective`: two effects with the same name are the same.
-/

namespace EffectCalculus

/-- The bases that a transformer was given, the oldest first. -/
def Bases.toList : Bases → List Effect
  | .bare => []
  | .onto inner base => inner.toList ++ [base]

theorem Bases.toList_injective {a b : Bases} (h : a.toList = b.toList) : a = b := by
  match a, b with
  | .bare, .bare => rfl
  | .bare, .onto inner base => simp [Bases.toList] at h
  | .onto inner base, .bare => simp [Bases.toList] at h
  | .onto inner base, .onto inner' base' =>
    simp only [Bases.toList] at h
    obtain ⟨hinner, hbase⟩ := List.append_inj' h rfl
    rw [toList_injective hinner, (List.cons.inj hbase).1]

namespace Effect

/-- What a name begins with. -/
def word : Effect → String
  | .maybe => "Maybe"
  | .reader => "Reader"
  | .state => "State"
  | .identity => "Identity"
  | .transformer layer _ => layer.name

/-- What stands in brackets behind it. -/
def bases : Effect → List Effect
  | .transformer _ bases => bases.toList
  | _ => []

theorem word_letters (e : Effect) : ∀ c ∈ e.word.toList, c.isAlpha = true := by
  apply List.all_eq_true.mp
  cases e with
  | transformer layer bases =>
    show layer.name.toList.all Char.isAlpha = true
    cases layer <;> decide
  | _ => decide

/-- The words are all different, so with its bases an effect is determined. -/
theorem eq_of_word_of_bases {e e' : Effect} (hword : e.word = e'.word)
    (hbases : e.bases = e'.bases) : e = e' := by
  cases e with
  | transformer layer bases =>
    cases e' with
    | transformer layer' bases' =>
      obtain rfl := Bases.toList_injective hbases
      cases layer <;> cases layer' <;> simp [word, Layer.name] at hword ⊢
    | _ => cases layer <;> simp [word, Layer.name] at hword
  | _ =>
    cases e' with
    | transformer layer' bases' => cases layer' <;> simp [word, Layer.name] at hword
    | _ => simp [word] at hword ⊢

end Effect

/-! ## Brackets -/

/-- The names in brackets, one after the other. -/
def brackets (es : List Effect) : List Char :=
  es.flatMap fun e => '[' :: (e.name.toList ++ [']'])

theorem brackets_cons (e : Effect) (es : List Effect) (rest : List Char) :
    brackets (e :: es) ++ rest = '[' :: (e.name.toList ++ ']' :: (brackets es ++ rest)) := by
  simp [brackets]

theorem Bases.suffix_toList (bases : Bases) : bases.suffix.toList = brackets bases.toList := by
  match bases with
  | .bare => rfl
  | .onto inner base =>
    simp [Bases.suffix, Bases.toList, brackets, suffix_toList inner]

theorem Effect.name_toList (e : Effect) : e.name.toList = e.word.toList ++ brackets e.bases := by
  cases e with
  | transformer layer bases =>
    simp [Effect.name, Effect.word, Effect.bases, Bases.suffix_toList]
  | _ => simp [Effect.name, Effect.word, Effect.bases, brackets]

/-- The text is at its end, or a bracket closes. -/
def Closes : List Char → Prop
  | [] => True
  | c :: _ => c = ']'

theorem closes_cons (rest : List Char) : Closes (']' :: rest) := rfl

theorem Closes.ne_opening {rest more : List Char} (h : Closes rest) : rest ≠ '[' :: more := by
  rintro rfl
  cases h

theorem stops_brackets (es : List Effect) {rest : List Char} (h : Closes rest) :
    Text.Stops Char.isAlpha (brackets es ++ rest) := by
  cases es with
  | nil =>
    cases rest with
    | nil => trivial
    | cons c rest =>
      obtain rfl : c = ']' := h
      rfl
  | cons e es => rfl

/-- `e` is read off a text that begins with its name, up to where a bracket closes. -/
def Effect.Readable (e : Effect) : Prop :=
  ∀ (e' : Effect) (rest rest' : List Char), Closes rest → Closes rest' →
    e.name.toList ++ rest = e'.name.toList ++ rest' → e = e' ∧ rest = rest'

theorem brackets_append_inj {es es' : List Effect} (hes : ∀ e ∈ es, e.Readable)
    {rest rest' : List Char} (hr : Closes rest) (hr' : Closes rest')
    (h : brackets es ++ rest = brackets es' ++ rest') : es = es' ∧ rest = rest' := by
  induction es generalizing es' with
  | nil =>
    cases es' with
    | nil => exact ⟨rfl, h⟩
    | cons e' es' => exact absurd (h.trans (brackets_cons e' es' rest')) hr.ne_opening
  | cons e es ih =>
    cases es' with
    | nil => exact absurd (h.symm.trans (brackets_cons e es rest)) hr'.ne_opening
    | cons e' es' =>
      rw [brackets_cons, brackets_cons] at h
      obtain ⟨rfl, hmore⟩ := hes e List.mem_cons_self e' _ _ (closes_cons _) (closes_cons _)
        (List.cons.inj h).2
      have hes : ∀ e ∈ es, e.Readable := fun e he => hes e (List.mem_cons_of_mem _ he)
      obtain ⟨rfl, hrest⟩ := ih hes (List.cons.inj hmore).2
      exact ⟨rfl, hrest⟩

theorem Effect.readable_of_bases {e : Effect} (h : ∀ b ∈ e.bases, b.Readable) : e.Readable := by
  intro e' rest rest' hr hr' heq
  rw [name_toList, name_toList, List.append_assoc, List.append_assoc] at heq
  obtain ⟨hword, hmore⟩ := Text.word_append_inj e.word_letters e'.word_letters
    (stops_brackets e.bases hr) (stops_brackets e'.bases hr') heq
  obtain ⟨hbases, hrest⟩ := brackets_append_inj h hr hr' hmore
  exact ⟨eq_of_word_of_bases (String.toList_injective hword) hbases, hrest⟩

mutual

theorem Effect.readable : (e : Effect) → e.Readable
  | .maybe | .reader | .state | .identity =>
    Effect.readable_of_bases fun _ h => absurd h List.not_mem_nil
  | .transformer _ bases => Effect.readable_of_bases (Bases.readable bases)

theorem Bases.readable : (bases : Bases) → ∀ e ∈ bases.toList, e.Readable
  | .bare, _, h => absurd h List.not_mem_nil
  | .onto inner base, e, h =>
    (List.mem_append.mp h).elim (Bases.readable inner e) fun h =>
      List.mem_singleton.mp h ▸ Effect.readable base

end

theorem Effect.name_injective {e e' : Effect} (h : e.name = e'.name) : e = e' :=
  (Effect.readable e e' [] [] trivial trivial (by rw [h])).1

end EffectCalculus
