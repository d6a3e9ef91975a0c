import EffectCalculus.Effect.Error
import EffectCalculus.Run
import EffectCalculus.Term.Show

/-!
# Effect programs as data

Computations are data: a reader or state program records how it was put together, and running it is
a matter of `EffectCalculus.Effect.Engine`. What a program gets from outside is left open. `F` is
the type of the functions that the host supplies as callbacks and `P` that of the bodies of blocks,
once they are under way; a program only holds them.

* `Datum`: plain data, containers and computations.
* `Comp`: computations, one constructor for each kind of effect.
* `Fn`: whatever is called: a callback of the host, or a function that the effects themselves make.
* `Datum.kind`, `Datum.isA`: what the checks of the effects look at.
-/

namespace EffectCalculus

mutual

/-- What effect programs compute with. -/
inductive Datum (F P : Type)
  | null
  | bool (b : Bool)
  | int (n : Int)
  | text (s : String)
  | list (items : List (Datum F P))
  | tuple (items : List (Datum F P))
  | comp (c : Comp F P)

inductive Comp (F P : Type)
  /-- A present result. -/
  | some (v : Datum F P)
  /-- An absent result. -/
  | nothing
  | identity (v : Datum F P)
  | reader (m : ReaderProg F P)
  | state (m : StateProg F P)
  /-- A reader over the base in `bases`. -/
  | readerT (bases : Bases) (m : ReaderTProg F P)
  /-- A state program over the base in `bases`. -/
  | stateT (bases : Bases) (m : StateTProg F P)
  /-- A computation of the base with an optional result. -/
  | maybeT (bases : Bases) (inner : Datum F P)

/-- Programs that read an environment. -/
inductive ReaderProg (F P : Type)
  | pure (v : Datum F P)
  | ask
  | asks (f : Fn F P)
  | map (m : ReaderProg F P) (f : Fn F P)
  | bind (m : ReaderProg F P) (f : Fn F P)
  /-- Runs `m` in the environment that `f` makes of the present one. -/
  | within (f : Fn F P) (m : ReaderProg F P)

/-- Programs that pass a state along: single steps, bound together. -/
inductive StateProg (F P : Type)
  | step (s : StateStep F P)
  | bind (m : StateProg F P) (f : Fn F P)

/-- One step from a state to a new state and a result. -/
inductive StateStep (F P : Type)
  | pure (v : Datum F P)
  | get
  | gets (f : Fn F P)
  | put (v : Datum F P)
  | modify (f : Fn F P)
  | raw (f : Fn F P)

/-- Programs from an environment to a computation of the base. -/
inductive ReaderTProg (F P : Type)
  | pure (v : Datum F P)
  | ask
  | lift (c : Datum F P)
  | raw (f : Fn F P)
  | bind (m : ReaderTProg F P) (f : Fn F P)
  | within (f : Fn F P) (m : ReaderTProg F P)

/-- Programs from a state to a computation of the base that gives a new state and a result. -/
inductive StateTProg (F P : Type)
  | pure (v : Datum F P)
  | get
  | put (v : Datum F P)
  | lift (c : Datum F P)
  | raw (f : Fn F P)
  | bind (m : StateTProg F P) (f : Fn F P)

/-- Functions. Apart from `host` and `inert` they are made by the effects. -/
inductive Fn (F P : Type)
  /-- A callback. -/
  | host (f : F)
  /-- Data in the place of a function; it cannot be called. -/
  | inert (v : Datum F P)
  /-- The result of `f` as a computation of the effect. -/
  | unitAfter (e : Effect) (f : Fn F P)
  /-- Always `v`. -/
  | const (v : Datum F P)
  /-- From the first result on: runs `second` and combines the two results by `f`. -/
  | combine (e : Effect) (f : Fn F P) (second : Datum F P)
  /-- From the second result on: combines it with the first, `a`. -/
  | combineWith (e : Effect) (f : Fn F P) (a : Datum F P)
  /-- Puts a value in front of a chain of cells. -/
  | cons
  /-- The values of a chain of cells, oldest first. -/
  | unspool
  /-- Forgets its argument. -/
  | discard
  /-- Its argument as a present result. -/
  | present
  /-- The pair of `s` and its argument. -/
  | pairWith (s : Datum F P)
  /-- Goes on with a reader transformer after a result of the base. -/
  | thenReader (bases : Bases) (f : Fn F P) (env : Datum F P)
  /-- Goes on with a state transformer after a pair of the base. -/
  | thenState (bases : Bases) (f : Fn F P)
  /-- Goes on with a maybe transformer after an optional result of the base. -/
  | thenMaybe (bases : Bases) (f : Fn F P)
  /-- Starts a block whose body is a process. -/
  | start (e : Effect) (body : F)
  /-- Starts a block whose body is a plain function. -/
  | startPlain (e : Effect) (body : Fn F P)
  /-- Goes on with the body of a block. -/
  | resume (e : Effect) (rest : P)

end

variable {F P : Type}

namespace Fn

/-- Everything but data in the place of a function. -/
def callable : Fn F P → Bool
  | .inert _ => false
  | _ => true

end Fn

/-! ## Kinds -/

namespace Comp

/-- The effect whose program the computation is. -/
def effect : Comp F P → Effect
  | .some _ | .nothing => .maybe
  | .identity _ => .identity
  | .reader _ => .reader
  | .state _ => .state
  | .readerT bases _ => .transformer .reader bases
  | .stateT bases _ => .transformer .state bases
  | .maybeT bases _ => .transformer .maybe bases

/-- The name of the kind of a computation; present and absent results have names of their own. -/
def kind : Comp F P → String
  | .some _ => "Some"
  | .nothing => "Nothing"
  | c => c.effect.name

end Comp

namespace Datum

/-- The name of the kind of a datum. -/
def kind : Datum F P → String
  | .null => Atom.null.kind
  | .bool b => (Atom.bool b).kind
  | .int n => (Atom.int n).kind
  | .text s => (Atom.text s).kind
  | .list _ => "list"
  | .tuple _ => "tuple"
  | .comp c => c.kind

/-- The datum is a computation of the effect or of a special case of it. -/
def isA (e : Effect) : Datum F P → Bool
  | .comp c => c.effect.isA e
  | _ => false

/-- What a condition takes for true: everything but null, zero, absence and what is empty. -/
def truthy : Datum F P → Bool
  | .null => false
  | .bool b => b
  | .int n => n ≠ 0
  | .text s => s ≠ ""
  | .list items | .tuple items => !items.isEmpty
  | .comp .nothing => false
  | .comp _ => true

/-- The two parts of a pair; a list of two items and a text of two characters have them too. -/
def pair : Datum F P → Except EffectError (Datum F P × Datum F P)
  | .tuple [a, b] | .list [a, b] => .ok (a, b)
  | .tuple items | .list items =>
    .error (if items.length < 2 then .tooFewParts items.length else .tooManyParts)
  | .text s =>
    match s.toList with
    | [a, b] => .ok (.text (String.singleton a), .text (String.singleton b))
    | cs => .error (if cs.length < 2 then .tooFewParts cs.length else .tooManyParts)
  | d => .error (.noParts d.kind)

mutual
/-- The written form in messages. -/
def literal : Datum F P → String
  | .null => Atom.literal .null
  | .bool b => Atom.literal (.bool b)
  | .int n => Atom.literal (.int n)
  | .text s => Atom.literal (.text s)
  | .list items => "[" ++ ", ".intercalate (literalEach items) ++ "]"
  | .tuple items =>
    match literalEach items with
    | [one] => "(" ++ one ++ ",)"
    | texts => "(" ++ ", ".intercalate texts ++ ")"
  | .comp c => literalComp c

def literalEach : List (Datum F P) → List String
  | [] => []
  | d :: ds => d.literal :: literalEach ds

def literalComp : Comp F P → String
  | .some v => "Some(value=" ++ v.literal ++ ")"
  | .nothing => "Nothing()"
  | .identity v => "Identity(value=" ++ v.literal ++ ")"
  | c => c.kind
end

mutual
/-- Equality of data. Truth values count as numbers, and programs are never equal. -/
def same : Datum F P → Datum F P → Bool
  | .null, .null => true
  | .bool a, .bool b => a = b
  | .bool a, .int n => (if a then 1 else 0) = n
  | .int n, .bool b => n = (if b then 1 else 0)
  | .int m, .int n => m = n
  | .text s, .text t => s = t
  | .list xs, .list ys => sameEach xs ys
  | .tuple xs, .tuple ys => sameEach xs ys
  | .comp c, .comp d => sameComp c d
  | _, _ => false

def sameEach : List (Datum F P) → List (Datum F P) → Bool
  | [], [] => true
  | x :: xs, y :: ys => x.same y && sameEach xs ys
  | _, _ => false

def sameComp : Comp F P → Comp F P → Bool
  | .some v, .some w => v.same w
  | .nothing, .nothing => true
  | .identity v, .identity w => v.same w
  | _, _ => false
end

end Datum

end EffectCalculus
