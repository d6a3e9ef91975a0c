/-!
# Quoted names

Names in the textual form of terms stand between double quotes; a quote or a backslash inside is
written with a backslash in front, and every other character as itself.

* `quoted`: the written form of a name.
-/

namespace EffectCalculus.Text

/-- How one character of a name is written. -/
def escapeMark (c : Char) : List Char :=
  if c = '\\' ∨ c = '"' then ['\\', c] else [c]

def quoted (s : String) : String :=
  String.ofList ('"' :: (s.toList.flatMap escapeMark ++ ['"']))

/-- `s` between double quotes: `a"b` is written with three quotes and a backslash. -/
example : quoted "a\"b" = "\"a\\\"b\"" := by decide

end EffectCalculus.Text
