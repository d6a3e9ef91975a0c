import EffectCalculus.Effect.Operations

/-!
# Combinators

Helpers over any effect, written with units and binds only. Sequencing goes from left to right.

* `fmap`, `fmap2`: a function of one or two results.
* `sequence`: the results of several computations, in order. They are collected in a chain of cells,
  newest first, that is spooled off at the end.
* `traverse`, `forEach`, `replicate`: the same for the computations that a callback makes, with the
  results dropped, and for one computation several times.
* `block`: a block of an effect.
-/

namespace EffectCalculus

variable {σ F P : Type}

/-- The computation that a datum is; `operation` is what needs one. -/
def Datum.asComp (operation : String) : Datum F P → Act σ (Comp F P)
  | .comp c => return c
  | d => Run.fault (.unsupported operation d.kind)

def fmap (go : Performer σ F P) (f : Fn F P) (d : Datum F P) : Act σ (Datum F P) := do
  let c ← d.asComp "flat_map"
  go (.bind (.comp c) (.unitAfter c.effect f))

def fmap2 (go : Performer σ F P) (f : Fn F P) (first second : Datum F P) : Act σ (Datum F P) := do
  let c ← first.asComp "flat_map"
  go (.bind (.comp c) (.combine c.effect f second))

/-- The effect in which a list is sequenced: the given one, or that of the first item. -/
def sequenceEffect : List (Datum F P) → Option Effect → Except EffectError Effect
  | _, some e => .ok e
  | [], none => .error .emptySequence
  | .comp c :: _, none => .ok c.effect
  | d :: _, none => .error (.notOffered "pure" d.kind)

/-- Adds the results of the items to the chain of cells, one after the other. -/
def collect (go : Performer σ F P) : Datum F P → List (Datum F P) → Act σ (Datum F P)
  | cells, [] => return cells
  | cells, item :: items => do
    let cells ← fmap2 go .cons cells item
    collect go cells items

def sequence (go : Performer σ F P) (items : List (Datum F P)) (effect : Option Effect) :
    Act σ (Datum F P) := do
  let e ← Run.ofExcept (sequenceEffect items effect)
  let cells ← unitOf e .null
  let cells ← collect go cells items
  fmap go .unspool cells

/-- Calls `f` on every item, from left to right. -/
def callEach (go : Performer σ F P) (f : Fn F P) : List (Datum F P) → Act σ (List (Datum F P))
  | [] => return []
  | x :: xs => do
    let y ← go (.call f [x])
    let ys ← callEach go f xs
    return y :: ys

def traverse (go : Performer σ F P) (f : Fn F P) (items : List (Datum F P))
    (effect : Option Effect) : Act σ (Datum F P) := do
  let computations ← callEach go f items
  sequence go computations effect

def forEach (go : Performer σ F P) (items : List (Datum F P)) (f : Fn F P)
    (effect : Option Effect) : Act σ (Datum F P) := do
  let results ← traverse go f items effect
  fmap go .discard results

def replicate (go : Performer σ F P) (n : Int) (d : Datum F P) : Act σ (Datum F P) :=
  if n < 0 then Run.fault .negativeCount
  else do
    let c ← d.asComp "pure"
    sequence go (List.replicate n.toNat (.comp c)) (some c.effect)

/-- A block of the effect: `start` opens its body whenever the block is run. -/
def block (go : Performer σ F P) (e : Effect) (start : Fn F P) : Act σ (Datum F P) := do
  let opening ← unitOf e .null
  go (.bind opening start)

end EffectCalculus
