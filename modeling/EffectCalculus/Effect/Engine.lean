import EffectCalculus.Effect.Unit

/-!
# Running effect programs

Binding, mapping, calling and running are tasks. `Task.attempt` does one task and hands every task
that arises on the way to `go`; `perform` closes the loop, with a bound on how deep the tasks nest.

The host is whoever wrote the callbacks and the bodies of blocks. It may hand tasks to `go` itself,
and it may keep a world of its own, on which its actions depend and which they change.

* `Comp.bindWith`: present results and `identity` go on at once, absence ends the matter, and all
  other effects record the continuation.
* `ReaderProg.runWith`, `ReaderTProg.runWith`, `StateTProg.runWith`: what a program does with an
  environment or a state.
* `Task.attempt` on `runState`: a state program runs as a loop over its single steps, with the
  binders still to be called on a stack.
* `Fn.callWith` on `resume`: a block yields computations of its effect one after the other. A
  present result of the maybe effect is given back at once; every other computation is bound to the
  rest of the block.
-/

namespace EffectCalculus

variable {σ F P : Type}

/-- Actions of effect programs on the world of the host. -/
abbrev Act (σ : Type) := Run EffectError σ

inductive Task (F P : Type)
  | call (f : Fn F P) (args : List (Datum F P))
  | bind (c : Datum F P) (f : Fn F P)
  | map (c : Datum F P) (f : Fn F P)
  | runReader (m : ReaderProg F P) (env : Datum F P)
  /-- Runs `m`, and then calls the `pending` binders on what comes out. -/
  | runState (pending : List (Fn F P)) (m : StateProg F P) (s : Datum F P)
  | runReaderT (bases : Bases) (m : ReaderTProg F P) (env : Datum F P)
  | runStateT (bases : Bases) (m : StateTProg F P) (s : Datum F P)

/-- Something that does tasks. -/
abbrev Performer (σ F P : Type) := Task F P → Act σ (Datum F P)

/-- What the body of a block does when it is resumed. -/
inductive Progress (F P : Type)
  | yielded (d : Datum F P) (rest : P)
  | returned (d : Datum F P)

/-- The callbacks and bodies of a host. -/
structure Host (σ F P : Type) where
  /-- Calls a callback. -/
  call : Performer σ F P → F → List (Datum F P) → Act σ (Datum F P)
  /-- Opens the body of a block, of which nothing has run yet. -/
  start : Performer σ F P → F → Act σ P
  /-- Runs a body from where it stands, giving it the result it waits for. -/
  resume : Performer σ F P → P → Datum F P → Act σ (Progress F P)

/-! ## Checks -/

/-- Lets a computation of the effect pass. -/
def Datum.ensure (slot : Slot) (e : Effect) (d : Datum F P) : Act σ (Datum F P) :=
  if d.isA e then pure d else Run.fault (.wrongEffect slot e d.kind)

/-- The unit of an effect as an action. -/
def unitOf (e : Effect) (v : Datum F P) : Act σ (Datum F P) := do
  let c ← Run.ofExcept (e.unit v)
  return .comp c

/-- The unit of a base as an action. -/
def baseUnitOf (layer : Layer) (bases : Bases) (v : Datum F P) : Act σ (Datum F P) := do
  let c ← Run.ofExcept (bases.unit layer v)
  return .comp c

/-! ## Binding and mapping -/

def Comp.bindWith (go : Performer σ F P) : Comp F P → Fn F P → Act σ (Datum F P)
  | .some v, f => do
    let next ← go (.call f [v])
    next.ensure .flatMap .maybe
  | .nothing, _ => return .comp .nothing
  | .identity v, f => do
    let next ← go (.call f [v])
    next.ensure .flatMap .identity
  | .reader m, f =>
    if f.callable then return .comp (.reader (.bind m f))
    else Run.fault (.binderNotCallable .reader)
  | .state m, f =>
    if f.callable then return .comp (.state (.bind m f))
    else Run.fault (.binderNotCallable .state)
  | .readerT bases m, f => return .comp (.readerT bases (.bind m f))
  | .stateT bases m, f => return .comp (.stateT bases (.bind m f))
  | .maybeT bases inner, f =>
    match bases.base? with
    | none => Run.fault (.noBase (.transformer .maybe bases))
    | .some _ => do
      let inner ← go (.bind inner (.thenMaybe bases f))
      return .comp (.maybeT bases inner)

def Comp.mapWith (go : Performer σ F P) : Comp F P → Fn F P → Act σ (Datum F P)
  | .some v, f => do
    let v ← go (.call f [v])
    return .comp (.some v)
  | .nothing, _ => return .comp .nothing
  | .reader m, f => return .comp (.reader (.map m f))
  | .state m, f => return .comp (.state (.bind m (.unitAfter .state f)))
  | c, f =>
    if f.callable then go (.bind (.comp c) (.unitAfter c.effect f))
    else Run.fault .mapperNotCallable

/-! ## Running -/

def ReaderProg.runWith (go : Performer σ F P) : ReaderProg F P → Datum F P → Act σ (Datum F P)
  | .pure v, _ => return v
  | .ask, env => return env
  | .asks f, env => go (.call f [env])
  | .map m f, env => do
    let v ← m.runWith go env
    go (.call f [v])
  | .bind m f, env => do
    let v ← m.runWith go env
    let next ← go (.call f [v])
    match next with
    | .comp (.reader m) => go (.runReader m env)
    | d => Run.fault (.wrongEffect .binder .reader d.kind)
  | .within f m, env => do
    let env ← go (.call f [env])
    m.runWith go env

/-- The first step of a program, with its binders on top of the pending ones. -/
def StateProg.unwind : StateProg F P → List (Fn F P) → StateStep F P × List (Fn F P)
  | .step s, pending => (s, pending)
  | .bind m f, pending => m.unwind (f :: pending)

def StateStep.runWith (go : Performer σ F P) :
    StateStep F P → Datum F P → Act σ (Datum F P × Datum F P)
  | .pure v, s => return (s, v)
  | .get, s => return (s, s)
  | .gets f, s => do
    let v ← go (.call f [s])
    return (s, v)
  | .put v, _ => return (v, .null)
  | .modify f, s => do
    let s ← go (.call f [s])
    return (s, .null)
  | .raw f, s => do
    let p ← go (.call f [s])
    Run.ofExcept p.pair

def ReaderTProg.runWith (go : Performer σ F P) (bases : Bases) :
    ReaderTProg F P → Datum F P → Act σ (Datum F P)
  | .pure v, _ => baseUnitOf .reader bases v
  | .ask, env => baseUnitOf .reader bases env
  | .lift c, _ => return c
  | .raw f, env => go (.call f [env])
  | .bind m f, env => do
    let c ← m.runWith go bases env
    go (.bind c (.thenReader bases f env))
  | .within f m, env => do
    let env ← go (.call f [env])
    m.runWith go bases env

def StateTProg.runWith (go : Performer σ F P) (bases : Bases) :
    StateTProg F P → Datum F P → Act σ (Datum F P)
  | .pure v, s => baseUnitOf .state bases (.tuple [s, v])
  | .get, s => baseUnitOf .state bases (.tuple [s, s])
  | .put v, _ => baseUnitOf .state bases (.tuple [v, .null])
  | .lift c, s => go (.map c (.pairWith s))
  | .raw f, s => go (.call f [s])
  | .bind m f, s => do
    let c ← m.runWith go bases s
    go (.bind c (.thenState bases f))

/-! ## Calling -/

/-- The values in a chain of cells in front of `tail`; the newest cell comes first in the chain and
last in the list. -/
def Datum.unspool (tail : List (Datum F P)) : Datum F P → List (Datum F P)
  | .tuple [v, rest] => rest.unspool (v :: tail)
  | _ => tail

def Fn.callWith (host : Host σ F P) (go : Performer σ F P) :
    Fn F P → List (Datum F P) → Act σ (Datum F P)
  | .host f, args => host.call go f args
  | .inert v, _ => Run.fault (.notCallable v.kind)
  | .unitAfter e f, args => do
    let v ← go (.call f args)
    unitOf e v
  | .const v, _ => return v
  | .combine e f second, [a] => go (.bind second (.combineWith e f a))
  | .combineWith e f a, [b] => do
    let v ← go (.call f [a, b])
    unitOf e v
  | .cons, [rest, v] => return .tuple [v, rest]
  | .unspool, [cells] => return .list (cells.unspool [])
  | .discard, _ => return .null
  | .present, [v] => return .comp (.some v)
  | .pairWith s, [v] => return .tuple [s, v]
  | .thenReader bases f env, [v] => do
    let next ← go (.call f [v])
    match ← next.ensure .binder (.transformer .reader bases) with
    | .comp (.readerT bases m) => go (.runReaderT bases m env)
    | d => Run.fault (.unsupported "run" d.kind)
  | .thenState bases f, [p] => do
    let (s, v) ← Run.ofExcept p.pair
    let next ← go (.call f [v])
    match ← next.ensure .binder (.transformer .state bases) with
    | .comp (.stateT bases m) => go (.runStateT bases m s)
    | d => Run.fault (.unsupported "run" d.kind)
  | .thenMaybe bases f, [optional] =>
    match optional with
    | .comp (.some v) => do
      let next ← go (.call f [v])
      match ← next.ensure .binder (.transformer .maybe bases) with
      | .comp (.maybeT _ inner) => return inner
      | d => Run.fault (.unsupported "run" d.kind)
    | _ => baseUnitOf .maybe bases (.comp .nothing)
  | .start e body, _ => do
    let p ← host.start go body
    go (.call (.resume e p) [.null])
  | .startPlain e f, _ => do
    let v ← go (.call f [])
    unitOf e v
  | .resume e p, [sent] => do
    match ← host.resume go p sent with
    | .returned v => unitOf e v
    | .yielded (.comp c) rest =>
      match e, c with
      | .maybe, .some v => go (.call (.resume e rest) [v])
      | _, _ => go (.bind (.comp c) (.resume e rest))
    | .yielded d _ => Run.fault (.badYield d.kind e)
  | _, _ => Run.fault (.unsupported "call" "function")

/-! ## Tasks -/

/-- Does one task, and leaves the tasks that arise to `go`. -/
def Task.attempt (host : Host σ F P) (go : Performer σ F P) : Task F P → Act σ (Datum F P)
  | .call f args => f.callWith host go args
  | .bind (.comp c) f => c.bindWith go f
  | .bind d _ => Run.fault (.unsupported "flat_map" d.kind)
  | .map (.comp c) f => c.mapWith go f
  | .map d _ => Run.fault (.unsupported "map" d.kind)
  | .runReader m env => m.runWith go env
  | .runState pending m s => do
    let (step, pending) := m.unwind pending
    let (s, v) ← step.runWith go s
    match pending with
    | [] => return .tuple [s, v]
    | f :: pending => do
      let next ← go (.call f [v])
      match next with
      | .comp (.state m) => go (.runState pending m s)
      | d => Run.fault (.wrongEffect .binder .state d.kind)
  | .runReaderT bases m env => m.runWith go bases env
  | .runStateT bases m s => m.runWith go bases s

/-- Does a task within the given depth. -/
def perform (host : Host σ F P) : Nat → Performer σ F P
  | 0, _ => Run.unfinished
  | n + 1, task => task.attempt host (perform host n)

end EffectCalculus
