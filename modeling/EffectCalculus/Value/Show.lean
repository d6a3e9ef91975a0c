import EffectCalculus.Term.Show

/-!
# The written forms of values

* `Value.render`: as in `VClo fromList [("x",VNum 1)] "y" (Num (0,0) 2)`, with the bindings in
  increasing order of their names. It refuses data that is no value, in the order of the text.
* `Value.literal`: the form used in messages, with the bindings in the order of the environment.
-/

namespace EffectCalculus

open Text

/-- Bindings in increasing order of their names; equal names keep their order. -/
def sortByName {α : Type} (bindings : List (String × α)) : List (String × α) :=
  bindings.mergeSort fun a b => a.1 ≤ b.1

/-- The first error of a list of named results, or the texts of all of them. -/
def renderBindings : List (String × Except EvalError String) → Except EvalError (List String)
  | [] => .ok []
  | (x, result) :: rest => do
    let v ← result
    let others ← renderBindings rest
    return ("(" ++ quoted x ++ "," ++ v ++ ")") :: others

namespace Value

mutual
def render : Value → Except EvalError String
  | .num n => .ok ("VNum " ++ argument n)
  | .closure env x b => do
    let bindings ← renderBindings (sortByName (renderEach env))
    let b ← b.render
    return "VClo fromList [" ++ ",".intercalate bindings ++ "] " ++ quoted x ++ " (" ++ b ++ ")"
  | .atom a => .error (.notValue a)

def renderEach : List (String × Value) → List (String × Except EvalError String)
  | [] => []
  | (x, v) :: rest => (x, v.render) :: renderEach rest
end

mutual
def literal : Value → String
  | .num n => "VNum(value=" ++ decimal n ++ ")"
  | .closure env x b =>
    "VClo(env=frozendict.frozendict(\x7b" ++ ", ".intercalate (literalEach env) ++ "\x7d), param="
      ++ Text.literal x ++ ", body=" ++ b.literal ++ ")"
  | .atom a => a.literal

def literalEach : List (String × Value) → List String
  | [] => []
  | (x, v) :: rest => (Text.literal x ++ ": " ++ v.literal) :: literalEach rest
end

end Value

/-- The bindings of an environment with their renderings, in its own order. -/
def Env.render (env : Env) : Except EvalError (List (String × String)) :=
  env.mapM fun (x, v) => do
    let v ← v.render
    return (x, v)

end EffectCalculus
