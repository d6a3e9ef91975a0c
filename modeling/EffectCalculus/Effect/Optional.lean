import EffectCalculus.Effect.Engine

/-!
# Optional results

The further operations of the maybe effect, on present and absent results as such.
-/

namespace EffectCalculus

variable {σ F P : Type}

/-- The optional result that a computation of the maybe effect is. -/
def Comp.optional? : Comp F P → Option (Option (Datum F P))
  | .some v => .some (.some v)
  | .nothing => .some .none
  | _ => .none

/-- An optional result as a computation. -/
def Comp.ofOptional : Option (Datum F P) → Comp F P
  | .some v => .some v
  | .none => .nothing

namespace Optional

/-- Null stands for absence. -/
def ofNullable : Datum F P → Option (Datum F P)
  | .null => none
  | v => some v

/-- Absence becomes null. -/
def toNullable : Option (Datum F P) → Datum F P
  | some v => v
  | none => .null

/-- The result, which has to be present; an empty message gives way to a standard one. -/
def expect (message : String) : Option (Datum F P) → Except EffectError (Datum F P)
  | some v => .ok v
  | none =>
    .error (.absent (if message = "" then "Expected Some value, found Nothing" else message))

def unwrap : Option (Datum F P) → Except EffectError (Datum F P)
  | some v => .ok v
  | none => .error (.absent "Called unwrap on Nothing value")

/-- The result, or what `default` gives; `default` is run only if it is needed. -/
def unwrapOrElse (default : Act σ (Datum F P)) : Option (Datum F P) → Act σ (Datum F P)
  | some v => return v
  | none => default

/-- Keeps a result that passes the test `f`. -/
def filter (go : Performer σ F P) (f : Fn F P) :
    Option (Datum F P) → Act σ (Option (Datum F P))
  | some v => do
    let passes ← go (.call f [v])
    return if passes.truthy then some v else none
  | none => return none

end Optional

namespace Comp

/-- `Optional.filter` on a computation. -/
def filter (go : Performer σ F P) (c : Comp F P) (f : Fn F P) : Act σ (Datum F P) :=
  match c.optional? with
  | .some result => do
    let kept ← Optional.filter go f result
    return .comp (.ofOptional kept)
  | .none => Run.fault (.unsupported "filter" c.kind)

/-- The first of two if it is present, otherwise the second, whatever that is. -/
def orElse (c : Comp F P) (other : Datum F P) : Except EffectError (Datum F P) :=
  match c.optional? with
  | .some (.some _) => .ok (.comp c)
  | .some .none => .ok other
  | .none => .error (.noOperator "|" c.kind other.kind)

end Comp

end EffectCalculus
