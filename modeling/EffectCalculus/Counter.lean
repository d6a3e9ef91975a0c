import EffectCalculus.Effect.Combinators

/-!
# Counting programs

Small programs of the state effect, written as blocks. The Fibonacci state is the pair of the
current and the previous number; one step adds the two and moves the current one back.

* `countUp`: adds one to the counter several times and gives its final value.
* `fibState`, `fibFor`: several Fibonacci steps, by a block that contains itself and by a loop over
  blocks.
* `computeFib`, `computeFibFor`, `fibLoop`: Fibonacci numbers by these two and by a loop inside one
  block.
-/

namespace EffectCalculus.Counter

/-! ## Blocks -/

/-- The blocks. -/
inductive Routine
  | increment
  | countUp (n : Int)
  | fibStep
  | fibState (n : Int)
  | fibLoop (n : Int)
deriving DecidableEq, Repr

/-- A routine, as the body of its block or as the callback that makes its block. -/
inductive Callback
  | body (r : Routine)
  | making (r : Routine)
deriving DecidableEq, Repr

/-- Where a body stands. Apart from `opening`, each stage waits for the result of what was
yielded. -/
inductive Stage
  | opening (r : Routine)
  /-- Gets the counter and adds one to it. -/
  | bump
  /-- Is done. -/
  | finish
  /-- Reads the state and gives it. -/
  | readOut
  /-- Gives what it gets. -/
  | handOn
  /-- Gets a Fibonacci state and makes one step. -/
  | shift
  /-- Makes one Fibonacci step by its block. -/
  | stepOn
  /-- Has so many Fibonacci steps to make. -/
  | loop (left : Nat)
  /-- Gets a Fibonacci state, makes one step and has so many left. -/
  | shiftLoop (left : Nat)
  /-- Gets a Fibonacci state and gives the current number. -/
  | current
deriving DecidableEq, Repr

abbrev Item := Datum Callback Stage

abbrev Go := Performer Unit Callback Stage

/-- Truth values count as the numbers 0 and 1. -/
def number? : Item → Option Int
  | .int n => some n
  | .bool b => some (if b then 1 else 0)
  | _ => none

/-- The sum of two numbers; two texts, lists or tuples are put one after the other. -/
def plus (a b : Item) : Except EffectError Item :=
  match number? a, number? b with
  | some m, some n => .ok (.int (m + n))
  | _, _ =>
    match a, b with
    | .text s, .text t => .ok (.text (s ++ t))
    | .list xs, .list ys => .ok (.list (xs ++ ys))
    | .tuple xs, .tuple ys => .ok (.tuple (xs ++ ys))
    | .text _, d | .list _, d | .tuple _, d => .error (.joinsOwnKind a.kind d.kind)
    | a, b => .error (.noOperator "+" a.kind b.kind)

/-- The Fibonacci state after `p`. -/
def successor (p : Item) : Except EffectError Item := do
  let (current, previous) ← p.pair
  let sum ← plus current previous
  return .tuple [sum, current]

/-- The computation that reads the state. -/
def reading : Item := .comp (.state (.step .get))

/-- The computation that sets the state. -/
def setting (s : Item) : Item := .comp (.state (.step (.put s)))

def Routine.program (go : Go) (r : Routine) : Act Unit Item :=
  block go .state (.start .state (.body r))

/-- The numbers from `first` up to and without `last`. -/
def numbers (first last : Int) : List Item :=
  (List.range (last - first).toNat).map fun k : Nat => .int (first + k)

def Stage.resume (go : Go) : Stage → Item → Act Unit (Progress Callback Stage)
  | .opening .increment, _ => return .yielded reading .bump
  | .opening (.countUp n), _ => do
    let steps ← forEach go (numbers 0 n) (.host (.making .increment)) (some .state)
    return .yielded steps .readOut
  | .opening .fibStep, _ => return .yielded reading .shift
  | .opening (.fibState n), _ =>
    if n = 0 then return .returned .null
    else do
      let before ← Routine.program go (.fibState (n - 1))
      return .yielded before .stepOn
  | .opening (.fibLoop n), _ =>
    match n.toNat with
    | 0 => return .yielded reading .current
    | k + 1 => return .yielded reading (.shiftLoop k)
  | .bump, counter => do
    let s ← Run.ofExcept (plus counter (.int 1))
    return .yielded (setting s) .finish
  | .finish, _ => return .returned .null
  | .readOut, _ => return .yielded reading .handOn
  | .handOn, v => return .returned v
  | .shift, p => do
    let s ← Run.ofExcept (successor p)
    return .yielded (setting s) .finish
  | .stepOn, _ => do
    let step ← Routine.program go .fibStep
    return .yielded step .finish
  | .loop 0, _ => return .yielded reading .current
  | .loop (k + 1), _ => return .yielded reading (.shiftLoop k)
  | .shiftLoop k, p => do
    let s ← Run.ofExcept (successor p)
    return .yielded (setting s) (.loop k)
  | .current, p => do
    let (now, _) ← Run.ofExcept p.pair
    return .returned now

def host : Host Unit Callback Stage where
  call go f _ :=
    match f with
    | .making r => r.program go
    | .body _ => Run.fault (.unsupported "call" "body")
  start _ f :=
    match f with
    | .body r | .making r => return .opening r
  resume := Stage.resume

/-- Does the tasks of counting programs within the given depth. -/
def performer (bound : Nat) : Go := perform host bound

/-! ## Programs -/

def increment (go : Go) : Act Unit Item := Routine.program go .increment

def countUp (go : Go) (n : Int) : Act Unit Item := Routine.program go (.countUp n)

def fibStep (go : Go) : Act Unit Item := Routine.program go .fibStep

def fibState (go : Go) (n : Int) : Act Unit Item := Routine.program go (.fibState n)

def fibFor (go : Go) (n : Int) : Act Unit Item :=
  forEach go (numbers 1 (n + 1)) (.host (.making .fibStep)) (some .state)

/-- Builds a program and runs it from a state, which gives the final state and the result. -/
def runFrom (go : Go) (program : Act Unit Item) (s : Item) : Act Unit Item := do
  let d ← program
  let c ← d.asComp "run"
  c.run go (some s)

/-- The Fibonacci state to start from. -/
def fibStart : Int × Int := (0, 1)

/-- A Fibonacci state as a datum. -/
def fibItem (p : Int × Int) : Item := .tuple [.int p.1, .int p.2]

/-- The current number in the state that a program ends in. -/
def currentAfter (go : Go) (program : Act Unit Item) : Act Unit Item := do
  let p ← runFrom go program (fibItem fibStart)
  let s ← Run.ofExcept (p.item 0)
  Run.ofExcept (s.item 0)

def computeFib (go : Go) (n : Int) : Act Unit Item := currentAfter go (fibState go n)

def computeFibFor (go : Go) (n : Int) : Act Unit Item := currentAfter go (fibFor go n)

def fibLoop (go : Go) (n : Int) : Act Unit Item := do
  let p ← runFrom go (Routine.program go (.fibLoop n)) (fibItem fibStart)
  Run.ofExcept (p.item 1)

end EffectCalculus.Counter
