import EffectCalculus.Proofs.Term.Scope

/-!
# Places

The nodes of a term in preorder, each with the binders that enclose it. What a term holds, and
where, is said by its places; nothing in this module looks at what an operation does with them.

* `Place`, `Term.places`: a node with the parameters above it, and all of them in preorder;
* `mem_places_app`, `mem_places_abs`, …: the places of a term from those of its parts;
* `Term.parts`, `mem_parts_trans`: the subterms, and those of subterms;
* `Term.positions`: the positions in preorder;
* `isFree_iff_place`: a variable is free where it stands below no binder of its name.
-/

namespace EffectCalculus

/-- A node of a term with the parameters of the abstractions around it, the outermost first. -/
structure Place where
  binders : List String
  node : Term
deriving DecidableEq, Repr

/-- The same node inside one more abstraction. -/
def Place.below (y : String) (p : Place) : Place := ⟨y :: p.binders, p.node⟩

namespace Term

/-- All places of a term, in preorder. -/
def places : Term → List Place
  | .var pos x => [⟨[], .var pos x⟩]
  | .app pos f a => ⟨[], .app pos f a⟩ :: (f.places ++ a.places)
  | .abs pos y b => ⟨[], .abs pos y b⟩ :: b.places.map (Place.below y)
  | .num pos n => [⟨[], .num pos n⟩]
  | .add pos l r => ⟨[], .add pos l r⟩ :: (l.places ++ r.places)
  | .atom a => [⟨[], .atom a⟩]

variable {e s t f a b l r : Term} {pos : Pos} {x y : String} {ys : List String}

theorem places_app :
    (app pos f a).places = ⟨[], .app pos f a⟩ :: (f.places ++ a.places) := rfl

theorem places_abs :
    (abs pos y b).places = ⟨[], .abs pos y b⟩ :: b.places.map (Place.below y) := rfl

theorem places_add :
    (add pos l r).places = ⟨[], .add pos l r⟩ :: (l.places ++ r.places) := rfl

theorem mem_single : (⟨ys, t⟩ : Place) ∈ [⟨[], e⟩] ↔ ys = [] ∧ t = e := by
  simp

@[simp] theorem mem_places_var : ⟨ys, t⟩ ∈ (var pos x).places ↔ ys = [] ∧ t = .var pos x :=
  mem_single

@[simp] theorem mem_places_num {n : Int} :
    ⟨ys, t⟩ ∈ (num pos n).places ↔ ys = [] ∧ t = .num pos n :=
  mem_single

@[simp] theorem mem_places_atom {c : Atom} :
    ⟨ys, t⟩ ∈ (atom c).places ↔ ys = [] ∧ t = .atom c :=
  mem_single

@[simp] theorem mem_places_app :
    ⟨ys, t⟩ ∈ (app pos f a).places ↔
      (ys = [] ∧ t = .app pos f a) ∨ ⟨ys, t⟩ ∈ f.places ∨ ⟨ys, t⟩ ∈ a.places := by
  simp [places_app]

@[simp] theorem mem_places_add :
    ⟨ys, t⟩ ∈ (add pos l r).places ↔
      (ys = [] ∧ t = .add pos l r) ∨ ⟨ys, t⟩ ∈ l.places ∨ ⟨ys, t⟩ ∈ r.places := by
  simp [places_add]

@[simp] theorem mem_places_abs :
    ⟨ys, t⟩ ∈ (abs pos y b).places ↔
      (ys = [] ∧ t = .abs pos y b) ∨ ∃ zs, ys = y :: zs ∧ ⟨zs, t⟩ ∈ b.places := by
  simp only [places_abs, List.mem_cons, List.mem_map, Place.mk.injEq]
  refine or_congr Iff.rfl ?_
  constructor
  · rintro ⟨⟨zs, u⟩, hmem, h⟩
    simp only [Place.below, Place.mk.injEq] at h
    obtain ⟨rfl, rfl⟩ := h
    exact ⟨zs, rfl, hmem⟩
  · rintro ⟨zs, rfl, hmem⟩
    exact ⟨⟨zs, t⟩, hmem, rfl⟩

/-! ## Subterms -/

/-- The subterms, in preorder. -/
def parts (e : Term) : List Term := e.places.map Place.node

theorem parts_app : (app pos f a).parts = .app pos f a :: (f.parts ++ a.parts) := by
  simp only [parts, places_app, List.map_cons, List.map_append]

theorem parts_add : (add pos l r).parts = .add pos l r :: (l.parts ++ r.parts) := by
  simp only [parts, places_add, List.map_cons, List.map_append]

theorem parts_abs : (abs pos y b).parts = .abs pos y b :: b.parts := by
  simp only [parts, places_abs, List.map_cons, List.map_map]
  rfl

theorem self_mem_parts (e : Term) : e ∈ e.parts := by
  cases e <;> exact List.mem_cons_self

/-- A part of a part is a part. -/
theorem mem_parts_trans (ht : t ∈ e.parts) (hs : s ∈ t.parts) : s ∈ e.parts := by
  induction e with
  | var | num | atom =>
    obtain rfl := List.mem_singleton.mp ht
    exact hs
  | app pos f a ihf iha =>
    rw [parts_app, List.mem_cons, List.mem_append] at ht
    rcases ht with rfl | ht | ht
    · exact hs
    · simp [parts_app, ihf ht]
    · simp [parts_app, iha ht]
  | abs pos y b ih =>
    rw [parts_abs, List.mem_cons] at ht
    rcases ht with rfl | ht
    · exact hs
    · simp [parts_abs, ih ht]
  | add pos l r ihl ihr =>
    rw [parts_add, List.mem_cons, List.mem_append] at ht
    rcases ht with rfl | ht | ht
    · exact hs
    · simp [parts_add, ihl ht]
    · simp [parts_add, ihr ht]

/-! ## Positions -/

/-- The position of the outermost node; an atom has none. -/
def pos? : Term → Option Pos
  | .var pos _ | .app pos _ _ | .abs pos _ _ | .num pos _ | .add pos _ _ => some pos
  | .atom _ => none

/-- The positions of all nodes, in preorder. -/
def positions (e : Term) : List Pos := e.parts.filterMap pos?

@[simp] theorem positions_var : (var pos x).positions = [pos] := rfl

@[simp] theorem positions_num {n : Int} : (num pos n).positions = [pos] := rfl

@[simp] theorem positions_app :
    (app pos f a).positions = pos :: (f.positions ++ a.positions) := by
  simp [positions, parts_app, pos?]

@[simp] theorem positions_abs : (abs pos y b).positions = pos :: b.positions := by
  simp [positions, parts_abs, pos?]

@[simp] theorem positions_add :
    (add pos l r).positions = pos :: (l.positions ++ r.positions) := by
  simp [positions, parts_add, pos?]

/-! ## Free occurrences -/

/-- A variable is free where it stands below no binder of its name. -/
theorem isFree_iff_place (he : e.WellFormed) :
    e.IsFree x ↔ ∃ ys pos, ⟨ys, .var pos x⟩ ∈ e.places ∧ x ∉ ys := by
  induction e with
  | var pos y =>
    simp only [isFree_var, mem_places_var, var.injEq]
    constructor
    · rintro rfl
      exact ⟨[], pos, ⟨rfl, rfl, rfl⟩, List.not_mem_nil⟩
    · rintro ⟨ys, q, ⟨-, -, h⟩, -⟩
      exact h
  | num => simp
  | atom => exact he.elim
  | app pos f a ihf iha =>
    simp only [isFree_app he.1 he.2, ihf he.1, iha he.2, mem_places_app, reduceCtorEq, and_false,
      false_or, or_and_right, exists_or]
  | add pos l r ihl ihr =>
    simp only [isFree_add he.1 he.2, ihl he.1, ihr he.2, mem_places_add, reduceCtorEq, and_false,
      false_or, or_and_right, exists_or]
  | abs pos y b ih =>
    rw [isFree_abs, ih he]
    constructor
    · rintro ⟨⟨ys, q, hmem, hx⟩, hxy⟩
      exact ⟨y :: ys, q, by simp [hmem], by simp [hx, hxy]⟩
    · rintro ⟨ys, q, hmem, hx⟩
      simp only [mem_places_abs, reduceCtorEq, and_false, false_or] at hmem
      obtain ⟨zs, rfl, hmem⟩ := hmem
      rw [List.mem_cons, not_or] at hx
      exact ⟨⟨zs, q, hmem, hx.2⟩, hx.1⟩

end Term

end EffectCalculus
