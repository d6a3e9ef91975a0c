import EffectCalculus.Term.Show

/-!
# Where a written form ends

Numbers, positions and names are written so that a longer text tells where they end and what they
are. A number ends at the first character that is no digit, a name at the first quote that has no
backslash of its own.

* `Stops`, `word_append_inj`: the word in front of a text that goes on outside of its characters;
* `Ended`: a text that does not go on with a digit;
* `decimal_append_inj`, `argument_append_inj`: the number in front of such a text is determined;
* `quoted_append_inj`, `Pos.render_append_inj`: the name or the position in front of any text is.
-/

namespace EffectCalculus

namespace Text

/-! ## Words -/

/-- The text is empty or begins with a character that is none of the given ones. -/
def Stops (p : Char → Bool) : List Char → Prop
  | [] => True
  | c :: _ => p c = false

/-- A word is the longest run of its characters at the beginning. -/
theorem word_append_inj {p : Char → Bool} {ws ws' r r' : List Char} (hws : ∀ c ∈ ws, p c = true)
    (hws' : ∀ c ∈ ws', p c = true) (hr : Stops p r) (hr' : Stops p r')
    (h : ws ++ r = ws' ++ r') : ws = ws' ∧ r = r' := by
  have taken : ∀ {ws r : List Char}, (∀ c ∈ ws, p c = true) → Stops p r →
      (ws ++ r).takeWhile p = ws := by
    intro ws r hws hr
    rw [List.takeWhile_append_of_pos hws]
    cases r with
    | nil => simp
    | cons c r => simp [show p c = false from hr]
  have heq : ws = ws' := by rw [← taken hws hr, h, taken hws' hr']
  subst heq
  exact ⟨rfl, List.append_cancel_left h⟩

/-! ## Numbers -/

/-- The text is empty or begins with a character that is no digit. -/
def Ended : List Char → Prop
  | [] => True
  | c :: _ => c.isDigit = false

theorem ended_cons {c : Char} (hc : c.isDigit = false) (r : List Char) : Ended (c :: r) := hc

theorem Ended.stops {r : List Char} (h : Ended r) : Stops Char.isDigit r := by
  cases r <;> exact h

theorem repr_toList (n : Nat) : n.repr.toList = Nat.toDigits 10 n := by
  rw [Nat.repr_eq_ofList_toDigits, String.toList_ofList]

theorem isDigit_of_mem_repr {n : Nat} {c : Char} (h : c ∈ n.repr.toList) : c.isDigit = true := by
  rw [repr_toList] at h
  exact Nat.isDigit_of_mem_toDigits (by decide) (by decide) h

theorem repr_append_inj {m n : Nat} {r r' : List Char} (hr : Ended r) (hr' : Ended r')
    (h : m.repr.toList ++ r = n.repr.toList ++ r') : m = n ∧ r = r' := by
  obtain ⟨hrepr, hrest⟩ := word_append_inj (fun _ => isDigit_of_mem_repr)
    (fun _ => isDigit_of_mem_repr) hr.stops hr'.stops h
  rw [repr_toList, repr_toList] at hrepr
  have hmn := congrArg (Nat.ofDigitChars 10 · 0) hrepr
  simp only [Nat.ofDigitChars_ten_toDigits] at hmn
  exact ⟨hmn, hrest⟩

/-- A natural number does not begin like something that begins without a digit. -/
theorem repr_append_ne {n : Nat} {c : Char} {r r' : List Char} (hc : c.isDigit = false) :
    n.repr.toList ++ r ≠ c :: r' := by
  intro h
  cases hd : n.repr.toList with
  | nil => exact Nat.repr_ne_empty (String.toList_eq_nil_iff.mp hd)
  | cons d ds =>
    have hdigit : d.isDigit = true := isDigit_of_mem_repr (hd ▸ List.mem_cons_self)
    rw [hd] at h
    obtain ⟨rfl, -⟩ := List.cons.inj h
    rw [hdigit] at hc
    cases hc

theorem decimal_append_inj {m n : Int} {r r' : List Char} (hr : Ended r) (hr' : Ended r')
    (h : (decimal m).toList ++ r = (decimal n).toList ++ r') : m = n ∧ r = r' := by
  cases m with
  | ofNat m =>
    cases n with
    | ofNat n =>
      obtain ⟨rfl, hrest⟩ := repr_append_inj hr hr' h
      exact ⟨rfl, hrest⟩
    | negSucc n =>
      rw [decimal, decimal, String.toList_append] at h
      exact absurd h (repr_append_ne (by decide))
  | negSucc m =>
    cases n with
    | ofNat n =>
      rw [decimal, decimal, String.toList_append] at h
      exact absurd h.symm (repr_append_ne (by decide))
    | negSucc n =>
      have hdigits : (m + 1).repr.toList ++ r = (n + 1).repr.toList ++ r' := by
        simpa [decimal] using h
      obtain ⟨hmn, hrest⟩ := repr_append_inj hr hr' hdigits
      obtain rfl : m = n := by omega
      exact ⟨rfl, hrest⟩

theorem argument_of_neg {n : Int} (h : n < 0) :
    (argument n).toList = '(' :: ((decimal n).toList ++ [')']) := by
  simp [argument, h]

theorem argument_of_nonneg {n : Int} (h : ¬ n < 0) : argument n = decimal n := by
  simp [argument, h]

/-- A number as an argument begins with a parenthesis exactly if it is negative. -/
theorem decimal_append_ne {n : Int} (hn : ¬ n < 0) {r r' : List Char} :
    (decimal n).toList ++ r ≠ '(' :: r' := by
  cases n with
  | ofNat n => exact repr_append_ne (by decide)
  | negSucc n => exact absurd (Int.negSucc_lt_zero n) hn

theorem argument_append_inj {m n : Int} {r r' : List Char} (hr : Ended r) (hr' : Ended r')
    (h : (argument m).toList ++ r = (argument n).toList ++ r') : m = n ∧ r = r' := by
  by_cases hm : m < 0 <;> by_cases hn : n < 0
  · have hinner : (decimal m).toList ++ ')' :: r = (decimal n).toList ++ ')' :: r' := by
      simpa [argument_of_neg hm, argument_of_neg hn] using h
    obtain ⟨rfl, hrest⟩ := decimal_append_inj (ended_cons rfl _) (ended_cons rfl _) hinner
    exact ⟨rfl, (List.cons.inj hrest).2⟩
  · rw [argument_of_neg hm, argument_of_nonneg hn] at h
    exact absurd h.symm (decimal_append_ne hn)
  · rw [argument_of_nonneg hm, argument_of_neg hn] at h
    exact absurd h (decimal_append_ne hm)
  · rw [argument_of_nonneg hm, argument_of_nonneg hn] at h
    exact decimal_append_inj hr hr' h

/-! ## Names -/

theorem escapeMark_append_inj {c d : Char} {r r' : List Char}
    (h : escapeMark c ++ r = escapeMark d ++ r') : c = d ∧ r = r' := by
  by_cases hc : c = '\\' ∨ c = '"' <;> by_cases hd : d = '\\' ∨ d = '"'
  · simpa [escapeMark, hc, hd] using h
  · simp only [escapeMark, hc, hd, ↓reduceIte, List.cons_append, List.nil_append] at h
    exact absurd (.inl (List.cons.inj h).1.symm) hd
  · simp only [escapeMark, hc, hd, ↓reduceIte, List.cons_append, List.nil_append] at h
    exact absurd (.inl (List.cons.inj h).1) hc
  · simpa [escapeMark, hc, hd] using h

/-- No character of a name begins like the quote that ends it. -/
theorem escapeMark_append_ne {c : Char} {r r' : List Char} : escapeMark c ++ r ≠ '"' :: r' := by
  by_cases hc : c = '\\' ∨ c = '"'
  · simp [escapeMark, hc]
  · simp only [escapeMark, hc, ↓reduceIte, List.cons_append, List.nil_append]
    exact fun h => hc (.inr (List.cons.inj h).1)

theorem escaped_append_inj {cs ds r r' : List Char}
    (h : cs.flatMap escapeMark ++ '"' :: r = ds.flatMap escapeMark ++ '"' :: r') :
    cs = ds ∧ r = r' := by
  induction cs generalizing ds with
  | nil =>
    cases ds with
    | nil => exact ⟨rfl, (List.cons.inj h).2⟩
    | cons d ds =>
      rw [List.flatMap_cons, List.append_assoc] at h
      exact absurd h.symm escapeMark_append_ne
  | cons c cs ih =>
    cases ds with
    | nil =>
      rw [List.flatMap_cons, List.append_assoc] at h
      exact absurd h escapeMark_append_ne
    | cons d ds =>
      simp only [List.flatMap_cons, List.append_assoc] at h
      obtain ⟨rfl, hcs⟩ := escapeMark_append_inj h
      obtain ⟨rfl, hrest⟩ := ih hcs
      exact ⟨rfl, hrest⟩

theorem quoted_append_inj {s t : String} {r r' : List Char}
    (h : (quoted s).toList ++ r = (quoted t).toList ++ r') : s = t ∧ r = r' := by
  have hinner : s.toList.flatMap escapeMark ++ '"' :: r =
      t.toList.flatMap escapeMark ++ '"' :: r' := by
    simpa [quoted] using h
  obtain ⟨hst, hrest⟩ := escaped_append_inj hinner
  exact ⟨String.toList_injective hst, hrest⟩

end Text

open Text

/-! ## Positions -/

theorem Pos.render_append_inj {p q : Pos} {r r' : List Char}
    (h : p.render.toList ++ r = q.render.toList ++ r') : p = q ∧ r = r' := by
  obtain ⟨line, column⟩ := p
  obtain ⟨line', column'⟩ := q
  have hline : (decimal line).toList ++ ',' :: ((decimal column).toList ++ ')' :: r) =
      (decimal line').toList ++ ',' :: ((decimal column').toList ++ ')' :: r') := by
    simpa [Pos.render] using h
  obtain ⟨rfl, hcolumn⟩ := decimal_append_inj (ended_cons rfl _) (ended_cons rfl _) hline
  obtain ⟨rfl, hrest⟩ := decimal_append_inj (ended_cons rfl _) (ended_cons rfl _)
    (List.cons.inj hcolumn).2
  exact ⟨rfl, (List.cons.inj hrest).2⟩

end EffectCalculus
