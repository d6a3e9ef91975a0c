/-!
# Switches

A switch is read from a setting that may be missing.

* `switchOf`: whether a setting turns its switch on.
-/

namespace EffectCalculus

/-- The settings that turn a switch on, in any letter case. No letter outside the ASCII range has
its lower case among the letters of these words, so ASCII case folding decides. -/
def onSettings : List (List Char) := ["1".toList, "true".toList, "yes".toList]

def lower (cs : List Char) : List Char := cs.map Char.toLower

/-- A switch is on if its setting is one of `onSettings`; a missing setting leaves it off. -/
def switchOf : Option String → Bool
  | none => false
  | some s => onSettings.contains (lower s.toList)

end EffectCalculus
