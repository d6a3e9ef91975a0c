import EffectCalculus.Effect.Error
import EffectCalculus.Term.Show

/-!
# Candidates for effects

Where an effect is wanted, something else may be offered.

* `Candidate.lacks`: what is said of a candidate that does not have an operation.
* `Effect.specialise`: a transformer accepts any effect as its base and refuses everything else.
* `Roster.admit`: numbers effects in the order of their first appearance, so that two have the same
  number exactly when they are the same.
-/

namespace EffectCalculus

inductive Candidate
  | effect (e : Effect)
  /-- A class that is no effect. -/
  | plainClass (name : String)
  /-- No class at all. -/
  | datum (a : Atom)
deriving DecidableEq, Repr

/-- The written form in messages. -/
def Candidate.literal : Candidate → String
  | .effect e => "<class '" ++ e.name ++ "'>"
  | .plainClass name => "<class '" ++ name ++ "'>"
  | .datum a => a.literal

/-- The name of a class. -/
def Candidate.name? : Candidate → Option String
  | .effect e => some e.name
  | .plainClass name => some name
  | .datum _ => none

/-- The error for a candidate that does not have the operation. -/
def Candidate.lacks (operation : String) : Candidate → EffectError
  | .effect e => .notOffered operation e.name
  | .plainClass name => .notOffered operation name
  | .datum a => .unsupported operation a.kind

/-- Specialises a transformer to a base. -/
def Effect.specialise : Effect → Candidate → Except EffectError Effect
  | .transformer layer bases, .effect base => .ok (.transformer layer (.onto bases base))
  | .transformer layer bases, c => .error (.badBase (.transformer layer bases) c.literal)
  | e, _ => .error (.notOffered "over" e.name)

/-! ## Numbering -/

/-- Classes in the order of their first appearance. -/
abbrev Roster := List Candidate

/-- The number of a class in a roster, which takes it in if it is new. -/
def Roster.admit (roster : Roster) (c : Candidate) : Nat × Roster :=
  match roster.idxOf? c with
  | some k => (k, roster)
  | none => (roster.length, roster ++ [c])

/-- Admits every class that could be made; an error in its place leaves the roster as it is. -/
def Roster.admitEach : Roster → List (Except EffectError Candidate) →
    List (Except EffectError (Candidate × Nat))
  | _, [] => []
  | roster, .ok c :: rest =>
    let (k, roster) := roster.admit c
    .ok (c, k) :: roster.admitEach rest
  | roster, .error e :: rest => .error e :: roster.admitEach rest

end EffectCalculus
