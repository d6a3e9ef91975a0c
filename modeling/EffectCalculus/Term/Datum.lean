import EffectCalculus.Effect.Program

/-!
# Terms as data

Terms as the data that effect programs pass along. A node is a tuple of the name of its kind, its
position and its parts, and an atom is the plain datum that it holds.

* `Term.datum`, `Datum.asTerm`: from terms to data and back.
-/

namespace EffectCalculus

variable {F P : Type}

def Pos.datum (pos : Pos) : Datum F P := .tuple [.int pos.line, .int pos.column]

def Atom.datum : Atom → Datum F P
  | .null => .null
  | .bool b => .bool b
  | .int n => .int n
  | .text s => .text s

def Term.datum : Term → Datum F P
  | .var pos x => .tuple [.text "Var", pos.datum, .text x]
  | .app pos f a => .tuple [.text "App", pos.datum, f.datum, a.datum]
  | .abs pos x b => .tuple [.text "Abs", pos.datum, .text x, b.datum]
  | .num pos n => .tuple [.text "Num", pos.datum, .int n]
  | .add pos l r => .tuple [.text "Add", pos.datum, l.datum, r.datum]
  | .atom a => a.datum

/-- The text that the datum is; what is none is taken for the empty one. -/
def Datum.asText : Datum F P → String
  | .text s => s
  | _ => ""

/-- The number that the datum is; what is none is taken for zero. -/
def Datum.asInt : Datum F P → Int
  | .int n => n
  | _ => 0

/-- The term that the datum stands for; what stands for none is taken for an atom. -/
def Datum.asTerm : Datum F P → Term
  | .tuple [.text kind, .tuple [.int line, .int column], d] =>
    if kind = "Var" then .var ⟨line, column⟩ d.asText
    else if kind = "Num" then .num ⟨line, column⟩ d.asInt
    else .atom .null
  | .tuple [.text kind, .tuple [.int line, .int column], d, d'] =>
    if kind = "App" then .app ⟨line, column⟩ d.asTerm d'.asTerm
    else if kind = "Abs" then .abs ⟨line, column⟩ d.asText d'.asTerm
    else if kind = "Add" then .add ⟨line, column⟩ d.asTerm d'.asTerm
    else .atom .null
  | .bool b => .atom (.bool b)
  | .int n => .atom (.int n)
  | .text s => .atom (.text s)
  | _ => .atom .null

@[simp] theorem Datum.asTerm_datum (e : Term) : (e.datum : Datum F P).asTerm = e := by
  induction e with
  | var | num => simp [Term.datum, Pos.datum, asTerm, asText, asInt]
  | app _ f a ihf iha => simp [Term.datum, Pos.datum, asTerm, ihf, iha]
  | abs _ x b ih => simp [Term.datum, Pos.datum, asTerm, asText, ih]
  | add _ l r ihl ihr => simp [Term.datum, Pos.datum, asTerm, ihl, ihr]
  | atom a => cases a <;> simp [Term.datum, Atom.datum, asTerm]

end EffectCalculus
