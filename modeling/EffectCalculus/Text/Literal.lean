import EffectCalculus.Text.Printable

/-!
# Literals

The written form of a text in messages. It stands between single quotes, or between double quotes
when it holds a single quote and no double one. The quote in use, the backslash, line feed, carriage
return and tab are escaped by a backslash; any other character that is not printable is written by
its code in two, four or eight lower-case hexadecimal digits.

* `literal`: the written form of a text.
-/

namespace EffectCalculus.Text

def singleQuote : Char := '\x27'

def doubleQuote : Char := '\x22'

/-- The last `width` hexadecimal digits of `n`, most significant first. -/
def hex : (width n : Nat) → List Char
  | 0, _ => []
  | width + 1, n => hex width (n / 16) ++ [Nat.digitChar (n % 16)]

/-- The code of a character that is not printable, in the shortest of the three widths. -/
def escapeCode (n : Nat) : List Char :=
  if n < 0x100 then '\\' :: 'x' :: hex 2 n
  else if n < 0x10000 then '\\' :: 'u' :: hex 4 n
  else '\\' :: 'U' :: hex 8 n

/-- How one character is written between the quotes `quote`. -/
def literalChar (quote c : Char) : List Char :=
  if c = quote ∨ c = '\\' then ['\\', c]
  else if c = '\n' then ['\\', 'n']
  else if c = '\r' then ['\\', 'r']
  else if c = '\t' then ['\\', 't']
  else if isPrintable c then [c]
  else escapeCode c.toNat

/-- Double quotes are used only around a text with a single quote and without a double one. -/
def literalQuote (cs : List Char) : Char :=
  if singleQuote ∈ cs ∧ doubleQuote ∉ cs then doubleQuote else singleQuote

def literal (s : String) : String :=
  let cs := s.toList
  let quote := literalQuote cs
  String.ofList (quote :: (cs.flatMap (literalChar quote) ++ [quote]))

end EffectCalculus.Text
