import EffectCalculus.Effect.Class

/-!
# Errors of effect programs

The checks that effect programs run into, and what callbacks raise themselves. Where something of
the wrong kind was met, the error holds the name of its kind.

* `EffectError.kind`, `EffectError.message`: the class of an error, and its wording.
-/

namespace EffectCalculus

/-- The place whose result is checked for its effect. -/
inductive Slot
  | flatMap
  | binder
  | lift
deriving DecidableEq, Repr

def Slot.name : Slot → String
  | .flatMap => "flat_map"
  | .binder => "binder"
  | .lift => "lift"

inductive EffectError
  /-- A checked place holds something that does not belong to the expected effect. -/
  | wrongEffect (slot : Slot) (expected : Effect) (got : String)
  /-- A binder of the reader or the state effect is no function. -/
  | binderNotCallable (effect : Effect)
  /-- The function to be mapped is no function. -/
  | mapperNotCallable
  /-- Something other than a function is called. -/
  | notCallable (got : String)
  /-- An operation needs the base of a bare transformer. -/
  | noBase (transformer : Effect)
  /-- A transformer is to be specialised to something that is no effect. -/
  | badBase (transformer : Effect) (got : String)
  /-- A block is declared for something that is no effect. -/
  | notAnEffect (got : String)
  /-- A block yields something that is no computation. -/
  | badYield (got : String) (expected : Effect)
  /-- An empty list is sequenced and no effect is given. -/
  | emptySequence
  /-- A computation is to be repeated a negative number of times. -/
  | negativeCount
  /-- The result of an absent computation is demanded. -/
  | absent (message : String)
  /-- A callback has raised an error of its own. -/
  | raised (message : String)
  /-- A pair is expected and something without parts is met. -/
  | noParts (got : String)
  /-- A pair is expected and fewer than two parts are met. -/
  | tooFewParts (count : Nat)
  /-- A pair is expected and more than two parts are met. -/
  | tooManyParts
  /-- An item is taken out of something that has none. -/
  | notIndexable (got : String)
  /-- An item is taken out of something that has fewer items. -/
  | outOfRange (container : String)
  /-- A computation that takes an environment or a state is run without it. -/
  | missingInput (kind input : String)
  /-- A computation that takes no environment and no state is run with one. -/
  | needlessInput (kind : String)
  /-- Two things are combined by an operator that neither of them has. -/
  | noOperator (symbol left right : String)
  /-- Something that can only be joined with its own kind is joined with another. -/
  | joinsOwnKind (left right : String)
  /-- An operation is asked of something that does not have it. -/
  | unsupported (operation got : String)
  /-- An operation is asked of a class that does not have it. -/
  | notOffered (operation name : String)
deriving DecidableEq, Repr

/-- The classes of errors, which are what an error can be told by. -/
inductive ErrorKind
  | type
  | value
  | index
  | runtime
  | attribute
  /-- The own errors of callbacks. -/
  | callback
deriving DecidableEq, Repr

namespace EffectError

def kind : EffectError → ErrorKind
  | .emptySequence | .negativeCount | .tooFewParts _ | .tooManyParts => .value
  | .outOfRange _ => .index
  | .absent _ => .runtime
  | .unsupported .. | .notOffered .. => .attribute
  | .raised _ => .callback
  | _ => .type

def message : EffectError → String
  | .wrongEffect slot expected got =>
    slot.name ++ " must return a " ++ expected.name ++ "; got " ++ got
  | .binderNotCallable e => "binder must be callable returning a " ++ e.name
  | .mapperNotCallable => "mapper must be callable"
  | .notCallable got => "'" ++ got ++ "' object is not callable"
  | .noBase t =>
    t.name ++ " has no base monad; specialise it with " ++ t.name ++ ".over(base)"
  | .badBase t got => t.name ++ " base must be a Monad class, got " ++ got
  | .notAnEffect got => "do() expects a Monad class, got " ++ got
  | .badYield got expected =>
    "@do block yielded " ++ got ++ "; expected a " ++ expected.name ++ " computation"
  | .emptySequence => "sequence of an empty list needs an explicit monad"
  | .negativeCount => "replicate count must be non-negative"
  | .absent message => message
  | .raised message => message
  | .noParts got => "cannot unpack non-iterable " ++ got ++ " object"
  | .tooFewParts count =>
    "not enough values to unpack (expected 2, got " ++ count.repr ++ ")"
  | .tooManyParts => "too many values to unpack (expected 2)"
  | .notIndexable got => "'" ++ got ++ "' object is not subscriptable"
  | .outOfRange container => container ++ " index out of range"
  | .missingInput kind input =>
    kind ++ ".run() missing 1 required positional argument: '" ++ input ++ "'"
  | .needlessInput kind => kind ++ ".run() takes 1 positional argument but 2 were given"
  | .noOperator symbol left right =>
    "unsupported operand type(s) for " ++ symbol ++ ": '" ++ left ++ "' and '" ++ right ++ "'"
  | .joinsOwnKind left right =>
    "can only concatenate " ++ left ++ " (not \"" ++ right ++ "\") to " ++ left
  | .unsupported operation got => "'" ++ got ++ "' object has no attribute '" ++ operation ++ "'"
  | .notOffered operation name =>
    "type object '" ++ name ++ "' has no attribute '" ++ operation ++ "'"

end EffectError

end EffectCalculus
