import EffectCalculus.Effect.Candidate

/-!
# Scripts

A small language in which effect programs and their callbacks are written down.

* `Expr`: expressions for plain data, evaluated strictly from left to right.
* `Build`: computations, built by the operations of the effects.
* `Func`, `Cont`: callbacks that give a datum and callbacks that build a computation.
* `Stmt`: the statements of a block.
* `EffectRef`: how a script names an effect.
-/

namespace EffectCalculus.Script

inductive EffectRef
  | candidate (c : Candidate)
  /-- A transformer specialised to a base. -/
  | onto (transformer base : EffectRef)
deriving DecidableEq, Repr

/-- Resolves the transformer first, then the base. -/
def EffectRef.resolve : EffectRef → Except EffectError Candidate
  | .candidate c => .ok c
  | .onto transformer base => do
    let t ← transformer.resolve
    let b ← base.resolve
    match t with
    | .effect e => do
      let e ← e.specialise b
      return .effect e
    | c => throw (c.lacks "over")

/-- Operations on two numbers. -/
inductive NumOp
  | add
  | sub
  | mul
  | lt
deriving DecidableEq, Repr

def NumOp.name : NumOp → String
  | .add => "add"
  | .sub => "sub"
  | .mul => "mul"
  | .lt => "lt"

mutual

inductive Expr
  | lit (a : Atom)
  | list (items : List Expr)
  | tuple (items : List Expr)
  | var (x : String)
  | arith (op : NumOp) (a b : Expr)
  | eq (a b : Expr)
  | concat (a b : Expr)
  | len (a : Expr)
  | nth (a i : Expr)
  | range (n : Expr)
  | ite (c t f : Expr)
  /-- Records the value under a tag and gives it. -/
  | trace (tag : String) (v : Expr)
  | raise (message : String)
  /-- The written form of the value. -/
  | literal (v : Expr)
  | comp (c : Build)

/-- A callback that gives a datum, or plain data in its place. -/
inductive Func
  | inert (a : Atom)
  | lam (params : List String) (body : Expr)

/-- A callback that builds a computation, or plain data in its place. -/
inductive Cont
  | inert (a : Atom)
  | lam (param : String) (body : Build)

inductive Build
  | value (v : Expr)
  | letIn (x : String) (bound body : Build)
  | ite (c : Expr) (t f : Build)
  | unit (m : EffectRef) (v : Expr)
  | present (v : Expr)
  | absent
  | ofNullable (v : Expr)
  | identity (v : Expr)
  | filter (source : Build) (f : Func)
  | orElse (a b : Build)
  | ask
  | asks (f : Func)
  | within (f : Func) (source : Build)
  | get
  | gets (f : Func)
  | put (v : Expr)
  | modify (f : Func)
  | state (f : Func)
  | askT (m : EffectRef)
  | getT (m : EffectRef)
  | putT (m : EffectRef) (v : Expr)
  | absentT (m : EffectRef)
  | lift (m : EffectRef) (source : Build)
  | raw (m : EffectRef) (k : Cont)
  | wrap (m : EffectRef) (source : Build)
  | bind (source : Build) (k : Cont)
  | map (source : Build) (f : Func)
  | andThen (source next : Build)
  /-- Binds the continuation several times. -/
  | iterate (source : Build) (n : Int) (k : Cont)
  | fmap (f : Func) (source : Build)
  | fmap2 (f : Func) (a b : Build)
  | sequence (items : List Build) (m : Option EffectRef)
  | traverse (items : Expr) (k : Cont) (m : Option EffectRef)
  | forEach (items : Expr) (k : Cont) (m : Option EffectRef)
  | replicate (n : Int) (source : Build)
  | block (m : EffectRef) (body : List Stmt)
  | plainBlock (m : EffectRef) (body : Expr)

inductive Stmt
  | bind (x : String) (c : Build)
  | exec (c : Build)
  | assign (x : String) (v : Expr)
  | ret (v : Expr)
  | ite (c : Expr) (t f : List Stmt)
  | each (x : String) (items : Expr) (body : List Stmt)

end

end EffectCalculus.Script
