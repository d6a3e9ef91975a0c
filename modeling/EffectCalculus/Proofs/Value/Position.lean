import EffectCalculus.Proofs.Term.Position
import EffectCalculus.Proofs.Value.Order

/-!
# Positions in values

A value has positions in the bodies of its closures, however deep in environments they stand.

* `Value.mapPos`, `Value.mapPosEach`: a value and an environment with other positions;
* `find?_mapPosEach`, `mapPosEach_extend`: looking up and extending can be exchanged with it;
* `Keyed.same_of_mapPos_eq`: values that agree once positions are forgotten are equal up to
  positions.
-/

namespace EffectCalculus.Value

/-! ## Other positions -/

mutual
/-- The value with `f` applied to every position in it. -/
def mapPos (f : Pos → Pos) : Value → Value
  | .num n => .num n
  | .closure env x b => .closure (mapPosEach f env) x (b.mapPos f)
  | .atom a => .atom a

def mapPosEach (f : Pos → Pos) : List (String × Value) → List (String × Value)
  | [] => []
  | (x, v) :: rest => (x, v.mapPos f) :: mapPosEach f rest
end

variable (f : Pos → Pos)

theorem find?_mapPosEach (env : Env) (x : String) :
    Bindings.find? (mapPosEach f env) x = (env.find? x).map (mapPos f) := by
  induction env with
  | nil => simp [mapPosEach]
  | cons p rest ih =>
    obtain ⟨y, v⟩ := p
    by_cases h : y = x <;> simp [mapPosEach, Bindings.find?, h, ih]

theorem mapPosEach_extend (env : Env) (x : String) (v : Value) :
    mapPosEach f (env.extend x v) = Bindings.extend (mapPosEach f env) x (v.mapPos f) := by
  induction env with
  | nil => simp [mapPosEach, Bindings.extend]
  | cons p rest ih =>
    obtain ⟨y, w⟩ := p
    by_cases h : y = x <;> simp [mapPosEach, Bindings.extend, h, ih]

theorem length_mapPosEach (env : Env) : (mapPosEach f env).length = env.length := by
  induction env with
  | nil => rfl
  | cons p rest ih => simp only [mapPosEach, List.length_cons, ih]

/-! ## Equality up to positions -/

theorem sameIn_iff {env env' : Env} :
    sameIn env env' = true ↔
      ∀ p ∈ env, ∃ v', env'.find? p.1 = some v' ∧ p.2.same v' = true := by
  induction env with
  | nil => simp [sameIn]
  | cons p rest ih =>
    obtain ⟨x, v⟩ := p
    rw [sameIn, Bool.and_eq_true, ih, List.forall_mem_cons]
    refine and_congr_left fun _ => ?_
    cases env'.find? x <;> simp

/-- Values that agree once positions are forgotten are equal up to positions. -/
theorem Keyed.same_of_mapPos_eq {v v' : Value} (h : v.Keyed)
    (heq : v.mapPos (fun _ => Pos.none) = v'.mapPos fun _ => Pos.none) : v.same v' = true := by
  induction h generalizing v' with
  | num n =>
    cases v' with
    | num n' =>
      cases heq
      simp [same]
    | _ => cases heq
  | atom a =>
    cases v' with
    | atom a' =>
      cases heq
      exact a.same_refl
    | _ => cases heq
  | @closure env x b hd _ ih =>
    cases v' with
    | num | atom => cases heq
    | closure env' x' b' =>
      simp only [mapPos, closure.injEq] at heq
      obtain ⟨henv, rfl, hb⟩ := heq
      have hlength : env.length = env'.length := by
        rw [← length_mapPosEach, henv, length_mapPosEach]
      have hsame : sameIn env env' = true := by
        refine sameIn_iff.mpr fun p hp => ?_
        have hfound : env.find? p.1 = some p.2 := (Bindings.find?_eq_some_iff hd).mpr hp
        have hfind := find?_mapPosEach (fun _ => Pos.none) env p.1
        rw [henv, find?_mapPosEach, hfound] at hfind
        obtain ⟨u', hu', heq⟩ := Option.map_eq_some_iff.mp hfind
        exact ⟨u', hu', ih p hp heq.symm⟩
      simp [same, hlength, hsame, Term.same_of_bare_eq hb]

end EffectCalculus.Value
