/-!
# Letter case

Mnemonics, register names, directives and operand endings are compared without
regard to the case of ASCII letters; every other character stands for itself.
`sameLetters` is that comparison, `lower` the lower-case form of a name, and
`dropEnding?` removes an ending that is spelled in either case.
-/

namespace Stm8.Text

/-- The name with its ASCII capitals made small. -/
def lower (s : String) : String :=
  String.ofList (s.toList.map Char.toLower)

/-- Whether two texts differ at most in the case of ASCII letters. -/
def sameLetters (xs ys : List Char) : Bool :=
  xs.map Char.toLower == ys.map Char.toLower

/-- The text before `ending`, which may be spelled in either case. An ending
has something before it: a text that is nothing but the ending has none. -/
def dropEnding? (ending cs : List Char) : Option (List Char) :=
  let keep := cs.length - ending.length
  if 0 < keep && sameLetters (cs.drop keep) ending then some (cs.take keep) else none

end Stm8.Text
