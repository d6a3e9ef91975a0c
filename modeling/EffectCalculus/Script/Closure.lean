import EffectCalculus.Bindings
import EffectCalculus.Effect.Combinators
import EffectCalculus.Script.Code

/-!
# Closures of scripts

What a script supplies as a host: callbacks with the scope in which they were written, and bodies of
blocks with the scope and the work that is left.
-/

namespace EffectCalculus.Script

mutual

inductive Closure
  | func (scope : List (String × Datum Closure Process)) (params : List String) (body : Expr)
  | cont (scope : List (String × Datum Closure Process)) (param : String) (body : Build)
  | plain (scope : List (String × Datum Closure Process)) (body : Expr)
  | body (scope : List (String × Datum Closure Process)) (stmts : List Stmt)

/-- A body under way. `target` is the name for the result that it waits for, if that is kept. -/
inductive Process
  | mk (scope : List (String × Datum Closure Process)) (target : Option String)
      (work : List Work)

/-- What a body has yet to do: statements, or a loop over the items that are left. -/
inductive Work
  | stmts (rest : List Stmt)
  | loop (x : String) (items : List (Datum Closure Process)) (body : List Stmt)

end

abbrev Item := Datum Closure Process

/-- What the names of a script stand for. -/
abbrev Scope := Bindings Item

/-- The recorded values with their tags, in order. -/
abbrev Trace := List (String × Item)

abbrev Go := Performer Trace Closure Process

/-- Actions of scripts; their world is the trace. -/
abbrev Action := Act Trace

/-- Binds several names; there have to be as many values. -/
def Scope.bindAll : Scope → List String → List Item → Option Scope
  | scope, [], [] => some scope
  | scope, x :: xs, v :: vs => bindAll (Bindings.extend scope x v) xs vs
  | _, _, _ => none

def ofAtom : Atom → Item
  | .null => .null
  | .bool b => .bool b
  | .int n => .int n
  | .text s => .text s

def Func.close (scope : Scope) : Func → Fn Closure Process
  | .inert a => .inert (ofAtom a)
  | .lam params body => .host (.func scope params body)

def Cont.close (scope : Scope) : Cont → Fn Closure Process
  | .inert a => .inert (ofAtom a)
  | .lam param body => .host (.cont scope param body)

/-- Ends with an error of the script itself. -/
def raise {α : Type} (message : String) : Action α := Run.fault (.raised message)

end EffectCalculus.Script
