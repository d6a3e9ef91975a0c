import EffectCalculus.Effect.Engine

/-!
# Operations of the effects

* `Effect.ask`, `Effect.get`, `Effect.put`, `Effect.absent`: the operations that a transformer adds.
  They need its base.
* `Effect.lift`: a computation of the base as one of the transformer.
* `Effect.raw`, `Effect.wrap`: a computation from its bare representation, a function or a datum.
  They need no base and check nothing.
* `Comp.within`: the same program in a changed environment.
* `Comp.run`: running a computation, with an environment or a state if it takes one.
* `execState`, `evalState`: the final state and the result of a state program.
-/

namespace EffectCalculus

variable {σ F P : Type}

/-! ## Transformers -/

/-- The base of a transformer; `operation` is what needs it. -/
def Effect.base (operation : String) : Effect → Except EffectError Effect
  | .transformer layer bases =>
    match bases.base? with
    | some base => .ok base
    | none => .error (.noBase (.transformer layer bases))
  | e => .error (.notOffered operation e.name)

def Effect.ask (e : Effect) : Except EffectError (Comp F P) := do
  let _ ← e.base "ask"
  match e with
  | .transformer .reader bases => return .readerT bases .ask
  | e => throw (.notOffered "ask" e.name)

def Effect.get (e : Effect) : Except EffectError (Comp F P) := do
  let _ ← e.base "get"
  match e with
  | .transformer .state bases => return .stateT bases .get
  | e => throw (.notOffered "get" e.name)

def Effect.put (e : Effect) (v : Datum F P) : Except EffectError (Comp F P) := do
  let _ ← e.base "put"
  match e with
  | .transformer .state bases => return .stateT bases (.put v)
  | e => throw (.notOffered "put" e.name)

/-- The absent computation of a maybe transformer. -/
def Effect.absent (e : Effect) : Except EffectError (Comp F P) := do
  let base ← e.base "fail"
  match e with
  | .transformer .maybe bases => do
    let c ← base.unit (.comp .nothing)
    return .maybeT bases (.comp c)
  | e => throw (.notOffered "fail" e.name)

def Effect.lift (go : Performer σ F P) (e : Effect) (d : Datum F P) : Act σ (Datum F P) := do
  let base ← Run.ofExcept (e.base "lift")
  let c ← d.ensure .lift base
  match e with
  | .transformer .reader bases => return .comp (.readerT bases (.lift c))
  | .transformer .state bases => return .comp (.stateT bases (.lift c))
  | .transformer .maybe bases => do
    let inner ← go (.map c .present)
    return .comp (.maybeT bases inner)
  | e => Run.fault (.notOffered "lift" e.name)

def Effect.raw (e : Effect) (f : Fn F P) : Except EffectError (Comp F P) :=
  match e with
  | .reader => .ok (.reader (.asks f))
  | .state => .ok (.state (.step (.raw f)))
  | .transformer .reader bases => .ok (.readerT bases (.raw f))
  | .transformer .state bases => .ok (.stateT bases (.raw f))
  | e => .error (.unsupported "raw" e.name)

/-- Where a function is wanted, `inner` is taken for one that cannot be called. -/
def Effect.wrap (e : Effect) (inner : Datum F P) : Except EffectError (Comp F P) :=
  match e with
  | .identity => .ok (.identity inner)
  | .transformer .maybe bases => .ok (.maybeT bases inner)
  | e => e.raw (.inert inner)

/-! ## Environments and runs -/

def Comp.within (f : Fn F P) : Comp F P → Except EffectError (Comp F P)
  | .reader m => .ok (.reader (.within f m))
  | .readerT bases m => .ok (.readerT bases (.within f m))
  | c => .error (.unsupported "local" c.kind)

/-- What a run takes: the environment of a reader or the initial state of a state program. -/
def Comp.input? : Comp F P → Option String
  | .reader _ | .readerT .. => .some "env"
  | .state _ | .stateT .. => .some "initial"
  | _ => .none

/-- The effect that says how to run a computation: a transformer without its bases. -/
def Effect.plain : Effect → Effect
  | .transformer layer _ => .transformer layer .bare
  | e => e

def Comp.run (go : Performer σ F P) : Comp F P → Option (Datum F P) → Act σ (Datum F P)
  | .identity v, .none => return v
  | .maybeT _ inner, .none => return inner
  | .reader m, .some env => go (.runReader m env)
  | .state m, .some s => go (.runState [] m s)
  | .readerT bases m, .some env => go (.runReaderT bases m env)
  | .stateT bases m, .some s => go (.runStateT bases m s)
  | .some v, _ => Run.fault (.unsupported "run" (Comp.some v).kind)
  | .nothing, _ => Run.fault (.unsupported "run" (Comp.nothing (F := F) (P := P)).kind)
  | c, _ =>
    match c.input? with
    | .some input => Run.fault (.missingInput c.effect.plain.name input)
    | .none => Run.fault (.needlessInput c.effect.plain.name)

/-- The item at a place of a container; `container` is its name in the error. -/
def itemAt {α : Type} (container : String) (items : List α) (i : Nat) : Except EffectError α :=
  match items[i]? with
  | some a => .ok a
  | none => .error (.outOfRange container)

/-- The item at a place of a list, tuple or text, counted from zero. -/
def Datum.item (i : Nat) : Datum F P → Except EffectError (Datum F P)
  | .list items => itemAt "list" items i
  | .tuple items => itemAt "tuple" items i
  | .text s => itemAt "string" (s.toList.map fun c => .text (String.singleton c)) i
  | d => .error (.notIndexable d.kind)

def execState (go : Performer σ F P) (c : Comp F P) (s : Datum F P) : Act σ (Datum F P) := do
  let p ← c.run go (some s)
  Run.ofExcept (p.item 0)

def evalState (go : Performer σ F P) (c : Comp F P) (s : Datum F P) : Act σ (Datum F P) := do
  let p ← c.run go (some s)
  Run.ofExcept (p.item 1)

end EffectCalculus
