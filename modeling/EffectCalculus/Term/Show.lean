import EffectCalculus.Error
import EffectCalculus.Text.Literal
import EffectCalculus.Text.Quoted

/-!
# The written forms of terms

* `Term.render`: constructor by constructor with positions, as in `Num (0,3) 5`; it refuses atoms,
  the leftmost first (`Term.render_ok_iff`).
* `Term.text`: the same for a term, and for an atom its plain text.
* `Term.literal`: the form used in messages, as in `Num(pos=(0, 3), value=5)`, for every tree.
-/

namespace EffectCalculus

/-! ## Parts -/

namespace Text

/-- Decimal digits, with a minus sign in front of a negative number. A configurable limit on how many
digits are written is not modelled, as a limit on the depth of recursion is not. -/
def decimal : Int → String
  | .ofNat n => n.repr
  | .negSucc n => "-" ++ (n + 1).repr

/-- A number as an argument: a negative one stands in parentheses. -/
def argument (n : Int) : String :=
  if n < 0 then "(" ++ decimal n ++ ")" else decimal n

end Text

open Text

namespace Pos

def render (p : Pos) : String := "(" ++ decimal p.line ++ "," ++ decimal p.column ++ ")"

def literal (p : Pos) : String := "(" ++ decimal p.line ++ ", " ++ decimal p.column ++ ")"

end Pos

namespace Atom

def literal : Atom → String
  | .null => "None"
  | .bool true => "True"
  | .bool false => "False"
  | .int n => decimal n
  | .text s => Text.literal s

/-- Like `literal`, but a text is itself. -/
def plain : Atom → String
  | .text s => s
  | a => a.literal

end Atom

/-! ## Terms -/

namespace Term

def render : Term → Except EvalError String
  | .var pos x => .ok ("Var " ++ pos.render ++ " " ++ quoted x)
  | .app pos f a => do
    let f ← f.render
    let a ← a.render
    return "App " ++ pos.render ++ " (" ++ f ++ ") (" ++ a ++ ")"
  | .abs pos x b => do
    let b ← b.render
    return "Abs " ++ pos.render ++ " " ++ quoted x ++ " (" ++ b ++ ")"
  | .num pos n => .ok ("Num " ++ pos.render ++ " " ++ argument n)
  | .add pos l r => do
    let l ← l.render
    let r ← r.render
    return "Add " ++ pos.render ++ " (" ++ l ++ ") (" ++ r ++ ")"
  | .atom a => .error (.notExpression a)

def text : Term → Except EvalError String
  | .atom a => .ok a.plain
  | e => e.render

def literal : Term → String
  | .var pos x => "Var(pos=" ++ pos.literal ++ ", name=" ++ Text.literal x ++ ")"
  | .app pos f a =>
    "App(pos=" ++ pos.literal ++ ", fun=" ++ f.literal ++ ", arg=" ++ a.literal ++ ")"
  | .abs pos x b =>
    "Abs(pos=" ++ pos.literal ++ ", param=" ++ Text.literal x ++ ", body=" ++ b.literal ++ ")"
  | .num pos n => "Num(pos=" ++ pos.literal ++ ", value=" ++ decimal n ++ ")"
  | .add pos l r =>
    "Add(pos=" ++ pos.literal ++ ", left=" ++ l.literal ++ ", right=" ++ r.literal ++ ")"
  | .atom a => a.literal

/-- A tree has a rendering exactly when no atom stands in it. -/
theorem render_ok_iff (e : Term) : (∃ s, e.render = .ok s) ↔ e.WellFormed := by
  induction e with
  | var | num => simp [render, WellFormed]
  | atom => simp [render, WellFormed]
  | abs pos x b ih =>
    cases h : b.render <;> simp_all [render, WellFormed, bind, Except.bind, pure, Except.pure]
  | app pos f a ihf iha =>
    cases hf : f.render <;> cases ha : a.render <;>
      simp_all [render, WellFormed, bind, Except.bind, pure, Except.pure]
  | add pos l r ihl ihr =>
    cases hl : l.render <;> cases hr : r.render <;>
      simp_all [render, WellFormed, bind, Except.bind, pure, Except.pure]

end Term

end EffectCalculus
