import EffectCalculus.Term.Datum
import EffectCalculus.Value.Basic

/-!
# Values as data

Values and environments as the data that effect programs pass along.

* `Value.datum`, `Datum.asValue`: from values to data and back.
* `Env.datum`, `Datum.asEnv`: the same for environments.
-/

namespace EffectCalculus

variable {F P : Type}

mutual

def Value.datum : Value → Datum F P
  | .num n => .tuple [.text "VNum", .int n]
  | .closure env x b => .tuple [.text "VClo", .list (bindingData env), .text x, b.datum]
  | .atom a => a.datum

def bindingData : List (String × Value) → List (Datum F P)
  | [] => []
  | (x, v) :: rest => .tuple [.text x, v.datum] :: bindingData rest

end

/-- An environment as the list of its bindings. -/
def Env.datum (env : Env) : Datum F P := .list (bindingData env)

mutual

/-- The value that the datum stands for; what stands for none is taken for an atom. -/
def Datum.asValue : Datum F P → Value
  | .tuple [.text kind, .int n] => if kind = "VNum" then .num n else .atom .null
  | .tuple [.text kind, .list items, x, b] =>
    if kind = "VClo" then .closure (asBindings items) x.asText b.asTerm else .atom .null
  | .bool b => .atom (.bool b)
  | .int n => .atom (.int n)
  | .text s => .atom (.text s)
  | _ => .atom .null

/-- The bindings that the data stand for; what stands for none is left out. -/
def Datum.asBindings : List (Datum F P) → Env
  | [] => []
  | .tuple [x, v] :: rest => (x.asText, v.asValue) :: asBindings rest
  | _ :: rest => asBindings rest

end

/-- The environment that the datum stands for. -/
def Datum.asEnv : Datum F P → Env
  | .list items => asBindings items
  | _ => []

mutual

@[simp] theorem Datum.asValue_datum : (v : Value) → (v.datum : Datum F P).asValue = v
  | .num n => by simp [Value.datum, asValue]
  | .closure env x b => by simp [Value.datum, asValue, asText, asBindings_bindingData env]
  | .atom a => by cases a <;> simp [Value.datum, Atom.datum, asValue]

theorem Datum.asBindings_bindingData : (env : List (String × Value)) →
    Datum.asBindings (bindingData env : List (Datum F P)) = env
  | [] => rfl
  | (x, v) :: rest => by
    simp [bindingData, asBindings, asText, asValue_datum v, asBindings_bindingData rest]

end

@[simp] theorem Datum.asEnv_datum (env : Env) : (env.datum : Datum F P).asEnv = env :=
  asBindings_bindingData env

end EffectCalculus
