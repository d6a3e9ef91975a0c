/-!
# Effect classes

An effect is one of four plain ones, or a transformer: a layer that adds reading, state or absence
on top of a base effect. A transformer starts out bare and is specialised by giving it a base; a
specialised one may be specialised again, and the newest base counts.

* `Effect.name`: a specialisation is named after what it was made from and its base, as in
  `StateT[ReaderT[Maybe]]`.
* `Effect.isA`: a specialisation is a special case of what it was made from, and of nothing else
  (`Bases.refines_bare_iff`).
-/

namespace EffectCalculus

/-- What a transformer adds to its base. -/
inductive Layer
  | reader
  | state
  | maybe
deriving DecidableEq, Repr

mutual

inductive Effect
  | maybe
  | reader
  | state
  | identity
  | transformer (layer : Layer) (bases : Bases)
deriving DecidableEq, Repr

/-- The bases that a transformer was given, oldest innermost. -/
inductive Bases
  | bare
  | onto (inner : Bases) (base : Effect)
deriving DecidableEq, Repr

end

namespace Layer

def name : Layer → String
  | .reader => "ReaderT"
  | .state => "StateT"
  | .maybe => "MaybeT"

end Layer

mutual

def Effect.name : Effect → String
  | .maybe => "Maybe"
  | .reader => "Reader"
  | .state => "State"
  | .identity => "Identity"
  | .transformer layer bases => layer.name ++ bases.suffix

/-- Every base in brackets, oldest first. -/
def Bases.suffix : Bases → String
  | .bare => ""
  | .onto inner base => inner.suffix ++ "[" ++ base.name ++ "]"

end

namespace Bases

/-- The base in force: the newest one. -/
def base? : Bases → Option Effect
  | .bare => none
  | .onto _ base => some base

/-- `a` is `b`, or was made from it by further specialisations. -/
def refines (a b : Bases) : Bool :=
  a = b || match a with
    | .bare => false
    | .onto inner _ => inner.refines b

theorem refines_refl (a : Bases) : a.refines a = true := by
  cases a <;> simp [Bases.refines]

theorem refines_bare_iff (b : Bases) : Bases.refines .bare b = true ↔ b = .bare := by
  simp [Bases.refines, eq_comm]

end Bases

namespace Effect

/-- The special cases of an effect are itself and the further specialisations of it. -/
def isA : Effect → Effect → Bool
  | .transformer layer a, .transformer layer' b => layer = layer' && a.refines b
  | a, b => a = b

theorem isA_refl (e : Effect) : e.isA e = true := by
  cases e <;> simp [isA, Bases.refines_refl]

/-- Reading an environment with results that may be absent: the effect of optional evaluation. -/
def optionalReader : Effect := .transformer .reader (.onto .bare .maybe)

end Effect

end EffectCalculus
