import EffectCalculus.Effect.Program

/-!
# Units

* `Effect.unit`: the computation of an effect that does nothing but give a value. A bare transformer
  has none; every other effect has one, of exactly that effect (`Effect.effect_of_unit`).
* `Bases.unit`: the unit of the base in force.
-/

namespace EffectCalculus

variable {F P : Type}

def Effect.unit : Effect → Datum F P → Except EffectError (Comp F P)
  | .maybe, v => .ok (.some v)
  | .identity, v => .ok (.identity v)
  | .reader, v => .ok (.reader (.pure v))
  | .state, v => .ok (.state (.step (.pure v)))
  | .transformer layer .bare, _ => .error (.noBase (.transformer layer .bare))
  | .transformer .reader (.onto inner base), v => .ok (.readerT (.onto inner base) (.pure v))
  | .transformer .state (.onto inner base), v => .ok (.stateT (.onto inner base) (.pure v))
  | .transformer .maybe (.onto inner base), v => do
    let c ← base.unit (.comp (.some v))
    return .maybeT (.onto inner base) (.comp c)

/-- The unit of the newest base; `layer` tells which transformer lacks one. -/
def Bases.unit (layer : Layer) (bases : Bases) (v : Datum F P) : Except EffectError (Comp F P) :=
  match bases.base? with
  | some base => base.unit v
  | none => .error (.noBase (.transformer layer bases))

theorem Effect.effect_of_unit {e : Effect} {v : Datum F P} {c : Comp F P}
    (h : e.unit v = .ok c) : c.effect = e := by
  cases e with
  | maybe | identity | reader | state =>
    simp only [Effect.unit, Except.ok.injEq] at h
    subst h
    rfl
  | transformer layer bases =>
    cases bases with
    | bare => simp [Effect.unit] at h
    | onto inner base =>
      cases layer with
      | reader | state =>
        simp only [Effect.unit, Except.ok.injEq] at h
        subst h
        rfl
      | maybe =>
        cases hc : base.unit (.comp (.some v)) with
        | error => simp [Effect.unit, hc, bind, Except.bind] at h
        | ok d =>
          simp only [Effect.unit, hc, bind, Except.bind, pure, Except.pure, Except.ok.injEq] at h
          subst h
          rfl

end EffectCalculus
