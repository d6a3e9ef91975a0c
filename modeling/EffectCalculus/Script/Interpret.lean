import EffectCalculus.Effect.Optional
import EffectCalculus.Script.Closure

/-!
# Running scripts

* `Expr.eval`: the value of an expression.
* `Build.build`: the computation that is built. Its parts are built from left to right before the
  operation is done, and callbacks run only when an effect calls them.
* `advance`: runs the statements of a block up to the next computation that it yields.
* `host`, `performer`: scripts as hosts of effect programs.
-/

namespace EffectCalculus.Script

/-! ## Operations on data -/

def NumOp.apply : NumOp → Int → Int → Item
  | .add, m, n => .int (m + n)
  | .sub, m, n => .int (m - n)
  | .mul, m, n => .int (m * n)
  | .lt, m, n => .bool (m < n)

def arith (op : NumOp) : Item → Item → Action Item
  | .int m, .int n => return op.apply m n
  | _, _ => raise op.name

def concat : Item → Item → Action Item
  | .text s, .text t => return .text (s ++ t)
  | .list xs, .list ys => return .list (xs ++ ys)
  | _, _ => raise "concat"

def len : Item → Action Item
  | .text s => return .int s.length
  | .list xs | .tuple xs => return .int xs.length
  | _ => raise "len"

def nth : Item → Item → Action Item
  | .list xs, .int i | .tuple xs, .int i =>
    if i < 0 then raise "nth"
    else
      match xs[i.toNat]? with
      | some v => return v
      | none => raise "nth"
  | _, _ => raise "nth"

def range : Item → Action Item
  | .int n => return .list ((List.range n.toNat).map fun k : Nat => .int k)
  | _ => raise "range"

/-- A truth value; `what` is raised otherwise. -/
def truth (what : String) : Item → Action Bool
  | .bool b => return b
  | _ => raise what

/-- The items of a list; `what` is raised otherwise. -/
def itemsOf (what : String) : Item → Action (List Item)
  | .list xs => return xs
  | _ => raise what

/-- Lets computations pass. -/
def computation (d : Item) : Action (Comp Closure Process) :=
  match d with
  | .comp c => return c
  | _ => raise "computation"

/-- An effect that a script names in a place where only an effect will do. -/
def effectFor (operation : String) (m : EffectRef) : Action Effect := do
  match ← Run.ofExcept m.resolve with
  | .effect e => return e
  | c => Run.fault (c.lacks operation)

/-- The effect given to a combinator, if one is given. -/
def effectFor? (operation : String) : Option EffectRef → Action (Option Effect)
  | none => return none
  | some m => do
    let e ← effectFor operation m
    return some e

/-- The effect of a block. -/
def blockEffect (m : EffectRef) : Action Effect := do
  match ← Run.ofExcept m.resolve with
  | .effect e => return e
  | c => Run.fault (.notAnEffect c.literal)

/-- A computation, or the error instead of it, as a datum. -/
def given (c : Except EffectError (Comp Closure Process)) : Action Item := do
  let c ← Run.ofExcept c
  return .comp c

/-- Binds `k` to a computation `n` times. -/
def iterate (go : Go) (k : Fn Closure Process) : Nat → Item → Action Item
  | 0, d => return d
  | n + 1, d => do
    let d ← go (.bind d k)
    iterate go k n d

/-! ## Expressions and computations -/

mutual

def Expr.eval (go : Go) : Expr → Scope → Action Item
  | .lit a, _ => return ofAtom a
  | .list items, scope => do
    let vs ← evalEach go items scope
    return .list vs
  | .tuple items, scope => do
    let vs ← evalEach go items scope
    return .tuple vs
  | .var x, scope =>
    match scope.find? x with
    | some v => return v
    | none => raise ("var " ++ x)
  | .arith op a b, scope => do
    let a ← a.eval go scope
    let b ← b.eval go scope
    arith op a b
  | .eq a b, scope => do
    let a ← a.eval go scope
    let b ← b.eval go scope
    return .bool (a.same b)
  | .concat a b, scope => do
    let a ← a.eval go scope
    let b ← b.eval go scope
    concat a b
  | .len a, scope => do
    let a ← a.eval go scope
    len a
  | .nth a i, scope => do
    let a ← a.eval go scope
    let i ← i.eval go scope
    nth a i
  | .range n, scope => do
    let n ← n.eval go scope
    range n
  | .ite c t f, scope => do
    let c ← c.eval go scope
    if ← truth "if" c then t.eval go scope else f.eval go scope
  | .trace tag v, scope => do
    let v ← v.eval go scope
    Run.modify (· ++ [(tag, v)])
    return v
  | .raise message, _ => raise message
  | .literal v, scope => do
    let v ← v.eval go scope
    return .text v.literal
  | .comp c, scope => c.build go scope

def evalEach (go : Go) : List Expr → Scope → Action (List Item)
  | [], _ => return []
  | e :: es, scope => do
    let v ← e.eval go scope
    let vs ← evalEach go es scope
    return v :: vs

def Build.build (go : Go) : Build → Scope → Action Item
  | .value v, scope => v.eval go scope
  | .letIn x bound body, scope => do
    let v ← bound.build go scope
    body.build go (scope.extend x v)
  | .ite c t f, scope => do
    let c ← c.eval go scope
    if ← truth "if" c then t.build go scope else f.build go scope
  | .unit m v, scope => do
    let e ← effectFor "pure" m
    let v ← v.eval go scope
    unitOf e v
  | .present v, scope => do
    let v ← v.eval go scope
    return .comp (.some v)
  | .absent, _ => return .comp .nothing
  | .ofNullable v, scope => do
    let v ← v.eval go scope
    return .comp (.ofOptional (Optional.ofNullable v))
  | .identity v, scope => do
    let v ← v.eval go scope
    return .comp (.identity v)
  | .filter source f, scope => do
    let c ← computation (← source.build go scope)
    c.filter go (f.close scope)
  | .orElse a b, scope => do
    let a ← computation (← a.build go scope)
    let b ← computation (← b.build go scope)
    Run.ofExcept (a.orElse (.comp b))
  | .ask, _ => return .comp (.reader .ask)
  | .asks f, scope => return .comp (.reader (.asks (f.close scope)))
  | .within f source, scope => do
    let c ← computation (← source.build go scope)
    given (c.within (f.close scope))
  | .get, _ => return .comp (.state (.step .get))
  | .gets f, scope => return .comp (.state (.step (.gets (f.close scope))))
  | .put v, scope => do
    let v ← v.eval go scope
    return .comp (.state (.step (.put v)))
  | .modify f, scope => return .comp (.state (.step (.modify (f.close scope))))
  | .state f, scope => return .comp (.state (.step (.raw (f.close scope))))
  | .askT m, _ => do
    let e ← effectFor "ask" m
    given e.ask
  | .getT m, _ => do
    let e ← effectFor "get" m
    given e.get
  | .putT m v, scope => do
    let e ← effectFor "put" m
    let v ← v.eval go scope
    given (e.put v)
  | .absentT m, _ => do
    let e ← effectFor "fail" m
    given e.absent
  | .lift m source, scope => do
    let e ← effectFor "lift" m
    let d ← source.build go scope
    e.lift go d
  | .raw m k, scope => do
    let e ← effectFor "raw" m
    given (e.raw (k.close scope))
  | .wrap m source, scope => do
    let e ← effectFor "wrap" m
    let d ← source.build go scope
    given (e.wrap d)
  | .bind source k, scope => do
    let c ← computation (← source.build go scope)
    go (.bind (.comp c) (k.close scope))
  | .map source f, scope => do
    let c ← computation (← source.build go scope)
    go (.map (.comp c) (f.close scope))
  | .andThen source next, scope => do
    let c ← computation (← source.build go scope)
    let d ← next.build go scope
    go (.bind (.comp c) (.const d))
  | .iterate source n k, scope => do
    let c ← computation (← source.build go scope)
    iterate go (k.close scope) n.toNat (.comp c)
  | .fmap f source, scope => do
    let c ← computation (← source.build go scope)
    fmap go (f.close scope) (.comp c)
  | .fmap2 f a b, scope => do
    let a ← computation (← a.build go scope)
    let b ← computation (← b.build go scope)
    fmap2 go (f.close scope) (.comp a) (.comp b)
  | .sequence items m, scope => do
    let cs ← buildEach go items scope
    let e ← effectFor? "pure" m
    sequence go (cs.map .comp) e
  | .traverse items k m, scope => do
    let xs ← itemsOf "traverse" (← items.eval go scope)
    let e ← effectFor? "pure" m
    traverse go (k.close scope) xs e
  | .forEach items k m, scope => do
    let xs ← itemsOf "for_each" (← items.eval go scope)
    let e ← effectFor? "pure" m
    forEach go xs (k.close scope) e
  | .replicate n source, scope => do
    let c ← computation (← source.build go scope)
    replicate go n (.comp c)
  | .block m body, scope => do
    let e ← blockEffect m
    block go e (.start e (.body scope body))
  | .plainBlock m body, scope => do
    let e ← blockEffect m
    block go e (.startPlain e (.host (.plain scope body)))

def buildEach (go : Go) : List Build → Scope → Action (List (Comp Closure Process))
  | [], _ => return []
  | c :: cs, scope => do
    let c ← computation (← c.build go scope)
    let cs ← buildEach go cs scope
    return c :: cs

end

/-! ## Blocks -/

/-- Works up to the next yield, doing at most the given number of statements and loop turns. -/
def advance (go : Go) : Nat → Scope → List Work → Action (Progress Closure Process)
  | 0, _, _ => Run.unfinished
  | _ + 1, _, [] => return .returned .null
  | n + 1, scope, .stmts [] :: work => advance go n scope work
  | n + 1, scope, .stmts (s :: rest) :: work =>
    match s with
    | .bind x c => do
      let d ← c.build go scope
      return .yielded d (.mk scope (some x) (.stmts rest :: work))
    | .exec c => do
      let d ← c.build go scope
      return .yielded d (.mk scope none (.stmts rest :: work))
    | .assign x v => do
      let v ← v.eval go scope
      advance go n (scope.extend x v) (.stmts rest :: work)
    | .ret v => do
      let v ← v.eval go scope
      return .returned v
    | .ite c t f => do
      let c ← c.eval go scope
      let b ← truth "if" c
      advance go n scope (.stmts (if b then t else f) :: .stmts rest :: work)
    | .each x items body => do
      let xs ← itemsOf "for" (← items.eval go scope)
      advance go n scope (.loop x xs body :: .stmts rest :: work)
  | n + 1, scope, .loop _ [] _ :: work => advance go n scope work
  | n + 1, scope, .loop x (v :: vs) body :: work =>
    advance go n (scope.extend x v) (.stmts body :: .loop x vs body :: work)

/-! ## The host -/

def Closure.call (go : Go) : Closure → List Item → Action Item
  | .func scope params code, args =>
    match Scope.bindAll scope params args with
    | some scope => code.eval go scope
    | none => Run.fault (.unsupported "call" "function")
  | .cont scope param code, [v] => code.build go (Bindings.extend scope param v)
  | .plain scope code, [] => code.eval go scope
  | _, _ => Run.fault (.unsupported "call" "function")

/-- The process of a body before its first statement. Its first result is dropped. -/
def Closure.toProcess : Closure → Action Process
  | .body scope stmts => return .mk scope none [.stmts stmts]
  | _ => Run.fault (.unsupported "start" "function")

def Process.resume (bound : Nat) (go : Go) :
    Process → Item → Action (Progress Closure Process)
  | .mk scope target work, v =>
    let scope := match target with
      | some x => Bindings.extend scope x v
      | none => scope
    advance go bound scope work

/-- Scripts as a host; `bound` limits the work of a body between two yields. -/
def host (bound : Nat) : Host Trace Closure Process where
  call := Closure.call
  start _ c := c.toProcess
  resume := Process.resume bound

/-- Does the tasks of scripts within the given depth. -/
def performer (bound : Nat) : Go := perform (host bound) bound

/-! ## Runs -/

/-- One step of a run: running a computation, possibly for its result or final state only. -/
inductive RunStep
  | run (input : Option Expr)
  | evalState (input : Expr)
  | execState (input : Expr)

def RunStep.apply (go : Go) : RunStep → Item → Action Item
  | .run input, d => do
    let input ← match input with
      | some e => do
        let v ← e.eval go []
        pure (some v)
      | none => pure none
    let c ← d.asComp "run"
    c.run go input
  | .evalState input, d => do
    let s ← input.eval go []
    let c ← d.asComp "run"
    EffectCalculus.evalState go c s
  | .execState input, d => do
    let s ← input.eval go []
    let c ← d.asComp "run"
    EffectCalculus.execState go c s

/-- Applies the steps one after the other. -/
def runSteps (go : Go) : List RunStep → Item → Action Item
  | [], d => return d
  | s :: rest, d => do
    let d ← s.apply go d
    runSteps go rest d

end EffectCalculus.Script
