import EffectCalculus.Script.Interpret

/-!
# Chains of optional results

A chain applies operations of the maybe effect to a current optional result, which an operation
replaces when its own result is optional.

* `ChainStep.apply`: the result of one step.
* `chainNext`: the current result after it.
-/

namespace EffectCalculus.Script

inductive ChainStep
  | isSome
  | isNone
  | unwrap
  | toNullable
  | truth
  | expect (message : String)
  | unwrapOr (default : Expr)
  | unwrapOrElse (default : Expr)
  | ofNullable (v : Expr)
  | unit (v : Expr)
  | absent
  | isAbsent
  | literal
  | filter (f : Func)
  | map (f : Func)
  | bind (k : Cont)
  | andThen (c : Build)
  | orElse (c : Build)

def ChainStep.apply (go : Go) (current : Option Item) : ChainStep → Action Item
  | .isSome | .truth => return .bool current.isSome
  | .isNone | .isAbsent => return .bool current.isNone
  | .unwrap => Run.ofExcept (Optional.unwrap current)
  | .toNullable => return Optional.toNullable current
  | .expect message => Run.ofExcept (Optional.expect message current)
  | .unwrapOr default => do
    let v ← default.eval go []
    Optional.unwrapOrElse (return v) current
  | .unwrapOrElse default => Optional.unwrapOrElse (default.eval go []) current
  | .ofNullable v => do
    let v ← v.eval go []
    return .comp (.ofOptional (Optional.ofNullable v))
  | .unit v => do
    let v ← v.eval go []
    return .comp (.some v)
  | .absent => return .comp .nothing
  | .literal => return .text (Datum.literalComp (.ofOptional current))
  | .filter f => Comp.filter go (.ofOptional current) (f.close [])
  | .map f => go (.map (.comp (.ofOptional current)) (f.close []))
  | .bind k => go (.bind (.comp (.ofOptional current)) (k.close []))
  | .andThen c => do
    let d ← c.build go []
    go (.bind (.comp (.ofOptional current)) (.const d))
  | .orElse c => do
    let d ← c.build go []
    Run.ofExcept ((Comp.ofOptional current).orElse d)

/-- An optional result becomes the current one; anything else leaves it. -/
def chainNext (current : Option Item) : Outcome EffectError Item → Option Item
  | .done (.comp c) => c.optional?.getD current
  | _ => current

end EffectCalculus.Script
