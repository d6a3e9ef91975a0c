import EffectCalculus.Proofs.Text.Boundary

/-!
# Rendered terms are read in one way

The rendering of a term says what the term is, positions included, and where it ends. A literal is
the only part that needs a mark after it, and there is always a parenthesis or the end.

* `Except.bind_eq_ok`: where the result of a compound computation comes from;
* `render_app_eq_ok`, …: the rendering of a term from those of its parts;
* `readOnce`: **unique reading** in front of any text that does not go on with a digit;
* `eq_of_render`: terms with one rendering are equal.
-/

namespace EffectCalculus

open Text

theorem Except.bind_eq_ok {ε α β : Type} {x : Except ε α} {f : α → Except ε β} {b : β} :
    (x >>= f) = .ok b ↔ ∃ a, x = .ok a ∧ f a = .ok b := by
  cases x with
  | ok a => simp [bind, Except.bind]
  | error e => simp [bind, Except.bind]

namespace Term

variable {pos : Pos} {f a b l r : Term} {s : String}

/-! ## Parts -/

/-- The rendering of a node with two parts. -/
def renderPair (tag : String) (pos : Pos) (s t : String) : String :=
  tag ++ pos.render ++ " (" ++ s ++ ") (" ++ t ++ ")"

theorem render_app_eq_ok : (app pos f a).render = .ok s ↔
    ∃ t u, f.render = .ok t ∧ a.render = .ok u ∧ renderPair "App " pos t u = s := by
  simp [render, Except.bind_eq_ok, renderPair, pure, Except.pure]

theorem render_add_eq_ok : (add pos l r).render = .ok s ↔
    ∃ t u, l.render = .ok t ∧ r.render = .ok u ∧ renderPair "Add " pos t u = s := by
  simp [render, Except.bind_eq_ok, renderPair, pure, Except.pure]

theorem render_abs_eq_ok {x : String} : (abs pos x b).render = .ok s ↔
    ∃ t, b.render = .ok t ∧ "Abs " ++ pos.render ++ " " ++ quoted x ++ " (" ++ t ++ ")" = s := by
  simp [render, Except.bind_eq_ok, pure, Except.pure]

/-! ## Unique reading -/

variable {e e' f' a' : Term} {s' t u t' u' : String} {q : Pos} {rest rest' : List Char}

/-- The word that a rendering begins with. -/
def tag : Term → List Char
  | .var _ _ => ['V', 'a', 'r']
  | .app _ _ _ => ['A', 'p', 'p']
  | .abs _ _ _ => ['A', 'b', 's']
  | .num _ _ => ['N', 'u', 'm']
  | .add _ _ _ => ['A', 'd', 'd']
  | .atom _ => []

theorem exists_tag_append (hs : e.render = .ok s) :
    e.tag.length = 3 ∧ ∃ cs, s.toList = e.tag ++ cs := by
  cases e with
  | var pos x =>
    cases hs
    exact ⟨rfl, by simp [tag]⟩
  | num pos n =>
    cases hs
    exact ⟨rfl, by simp [tag]⟩
  | app pos f a =>
    obtain ⟨t, u, -, -, rfl⟩ := render_app_eq_ok.mp hs
    exact ⟨rfl, by simp [tag, renderPair]⟩
  | add pos l r =>
    obtain ⟨t, u, -, -, rfl⟩ := render_add_eq_ok.mp hs
    exact ⟨rfl, by simp [tag, renderPair]⟩
  | abs pos x b =>
    obtain ⟨t, -, rfl⟩ := render_abs_eq_ok.mp hs
    exact ⟨rfl, by simp [tag]⟩
  | atom => cases hs

/-- Terms that are written alike are of one kind. -/
theorem tag_eq_of_render (hs : e.render = .ok s) (hs' : e'.render = .ok s')
    (h : s.toList ++ rest = s'.toList ++ rest') : e.tag = e'.tag := by
  obtain ⟨hlen, cs, hcs⟩ := exists_tag_append hs
  obtain ⟨hlen', ds, hds⟩ := exists_tag_append hs'
  rw [hcs, hds, List.append_assoc, List.append_assoc] at h
  exact List.append_inj_left h (hlen.trans hlen'.symm)

/-- The position that follows the tag, and what follows it. -/
theorem pos_append_inj {cs ds : List Char}
    (h : pos.render.toList ++ ' ' :: cs = q.render.toList ++ ' ' :: ds) : pos = q ∧ cs = ds := by
  obtain ⟨rfl, hrest⟩ := Pos.render_append_inj h
  exact ⟨rfl, (List.cons.inj hrest).2⟩

/-- Terms that are read in one way in front of any text that does not go on with a digit. -/
def ReadOnce (e : Term) : Prop :=
  ∀ {e' : Term} {s s' : String} {rest rest' : List Char}, e.render = .ok s → e'.render = .ok s' →
    Ended rest → Ended rest' → s.toList ++ rest = s'.toList ++ rest' → e = e' ∧ rest = rest'

theorem ReadOnce.pair {tag : String} (hf : f.ReadOnce) (ha : a.ReadOnce)
    (ht : f.render = .ok t) (hu : a.render = .ok u) (ht' : f'.render = .ok t')
    (hu' : a'.render = .ok u')
    (h : (renderPair tag pos t u).toList ++ rest = (renderPair tag q t' u').toList ++ rest') :
    pos = q ∧ f = f' ∧ a = a' ∧ rest = rest' := by
  have hpos : pos.render.toList ++ ' ' :: '(' :: (t.toList ++ ')' :: ' ' :: '(' ::
      (u.toList ++ ')' :: rest)) =
      q.render.toList ++ ' ' :: '(' :: (t'.toList ++ ')' :: ' ' :: '(' ::
        (u'.toList ++ ')' :: rest')) := by
    simpa [renderPair] using h
  obtain ⟨rfl, hparts⟩ := pos_append_inj hpos
  obtain ⟨rfl, hsecond⟩ := hf ht ht' (ended_cons rfl _) (ended_cons rfl _)
    (List.cons.inj hparts).2
  simp only [List.cons.injEq, true_and] at hsecond
  obtain ⟨rfl, hrest⟩ := ha hu hu' (ended_cons rfl _) (ended_cons rfl _) hsecond
  exact ⟨rfl, rfl, rfl, (List.cons.inj hrest).2⟩

/-- **Unique reading of terms.** -/
theorem readOnce (e : Term) : e.ReadOnce := by
  induction e with
  | atom =>
    intro e' s s' rest rest' hs
    cases hs
  | var pos x =>
    intro e' s s' rest rest' hs hs' hr hr' h
    have htag := tag_eq_of_render hs hs' h
    cases e' with
    | var q y =>
      cases hs
      cases hs'
      have hpos : pos.render.toList ++ ' ' :: ((quoted x).toList ++ rest) =
          q.render.toList ++ ' ' :: ((quoted y).toList ++ rest') := by simpa using h
      obtain ⟨rfl, hname⟩ := pos_append_inj hpos
      obtain ⟨rfl, hrest⟩ := quoted_append_inj hname
      exact ⟨rfl, hrest⟩
    | _ => cases htag
  | num pos n =>
    intro e' s s' rest rest' hs hs' hr hr' h
    have htag := tag_eq_of_render hs hs' h
    cases e' with
    | num q m =>
      cases hs
      cases hs'
      have hpos : pos.render.toList ++ ' ' :: ((argument n).toList ++ rest) =
          q.render.toList ++ ' ' :: ((argument m).toList ++ rest') := by simpa using h
      obtain ⟨rfl, hvalue⟩ := pos_append_inj hpos
      obtain ⟨rfl, hrest⟩ := argument_append_inj hr hr' hvalue
      exact ⟨rfl, hrest⟩
    | _ => cases htag
  | abs pos x b ih =>
    intro e' s s' rest rest' hs hs' hr hr' h
    have htag := tag_eq_of_render hs hs' h
    cases e' with
    | abs q y b' =>
      obtain ⟨t, ht, rfl⟩ := render_abs_eq_ok.mp hs
      obtain ⟨t', ht', rfl⟩ := render_abs_eq_ok.mp hs'
      have hpos : pos.render.toList ++
          ' ' :: ((quoted x).toList ++ ' ' :: '(' :: (t.toList ++ ')' :: rest)) =
          q.render.toList ++
            ' ' :: ((quoted y).toList ++ ' ' :: '(' :: (t'.toList ++ ')' :: rest')) := by
        simpa using h
      obtain ⟨rfl, hname⟩ := pos_append_inj hpos
      obtain ⟨rfl, hbody⟩ := quoted_append_inj hname
      simp only [List.cons.injEq, true_and] at hbody
      obtain ⟨rfl, hrest⟩ := ih ht ht' (ended_cons rfl _) (ended_cons rfl _) hbody
      exact ⟨rfl, (List.cons.inj hrest).2⟩
    | _ => cases htag
  | app pos f a ihf iha =>
    intro e' s s' rest rest' hs hs' hr hr' h
    have htag := tag_eq_of_render hs hs' h
    cases e' with
    | app q f' a' =>
      obtain ⟨t, u, ht, hu, rfl⟩ := render_app_eq_ok.mp hs
      obtain ⟨t', u', ht', hu', rfl⟩ := render_app_eq_ok.mp hs'
      obtain ⟨rfl, rfl, rfl, hrest⟩ := ihf.pair iha ht hu ht' hu' h
      exact ⟨rfl, hrest⟩
    | _ => cases htag
  | add pos l r ihl ihr =>
    intro e' s s' rest rest' hs hs' hr hr' h
    have htag := tag_eq_of_render hs hs' h
    cases e' with
    | add q l' r' =>
      obtain ⟨t, u, ht, hu, rfl⟩ := render_add_eq_ok.mp hs
      obtain ⟨t', u', ht', hu', rfl⟩ := render_add_eq_ok.mp hs'
      obtain ⟨rfl, rfl, rfl, hrest⟩ := ihl.pair ihr ht hu ht' hu' h
      exact ⟨rfl, hrest⟩
    | _ => cases htag

theorem eq_of_render (hs : e.render = .ok s) (hs' : e'.render = .ok s) : e = e' := by
  have hend : Ended [] := trivial
  exact (e.readOnce hs hs' hend hend rfl).1

end Term

end EffectCalculus
