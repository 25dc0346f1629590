import Stm8.Number
import Stm8.Value

/-!
# Reading values

A value is a number, or a sum of terms joined by `+` and `-` of which at most
one is a symbol. The text is cut before every sign that is not its first
character (`terms`); a sign in front belongs to the number behind it. The terms
are then added from left to right (`Sum.add?`), and every partial sum has to be
a quantity.
-/

namespace Stm8

/-- Whether the text is the name of a symbol: ASCII letters, digits, `_` and
`.`, and behind the first character also `$`. The first is no digit. -/
def isSymbolName : List Char → Bool
  | [] => false
  | c :: cs =>
    (c.isAlpha || c == '_' || c == '.') &&
      cs.all fun d => d.isAlphanum || d == '_' || d == '.' || d == '$'

namespace Value

/-- One term of a sum, before it is read. -/
structure Term where
  /-- Whether a minus sign joins it to the terms before it. -/
  negative : Bool
  /-- What stands between the signs. -/
  text : List Char
  deriving DecidableEq, Repr

/-- Cuts the text at every sign: what stands before the first one, and the
terms behind the signs. -/
def cutAtSigns : List Char → List Char × List Term
  | [] => ([], [])
  | c :: cs =>
    let (head, rest) := cutAtSigns cs
    if c == '+' || c == '-' then ([], ⟨c == '-', head⟩ :: rest) else (c :: head, rest)

/-- The terms of a sum. A sign in front of the first term is left in its text. -/
def terms : List Char → List Term
  | [] => [⟨false, []⟩]
  | c :: cs =>
    let (head, rest) := cutAtSigns cs
    ⟨false, c :: head⟩ :: rest

/-- A sum of terms as far as it has been read. -/
structure Sum where
  /-- The symbol among the terms. -/
  symbol : Option String := none
  /-- The sum of the numbers among them. -/
  addend : Int := 0
  deriving DecidableEq, Repr

/-- The sum with one more term. There is none if the term is neither a number
nor a name, if the name is subtracted or the second one, or if the numbers no
longer add up to a quantity. -/
def Sum.add? (sum : Sum) (term : Term) : Option Sum :=
  let text := Text.trim term.text
  match Number.parse? text with
  | some n =>
    let addend := if term.negative then sum.addend - n else sum.addend + n
    if Quantity.fits addend then some { sum with addend } else none
  | none =>
    if isSymbolName text && !term.negative && sum.symbol.isNone then
      some { sum with symbol := some (String.ofList text) }
    else none

/-- The value that a sum denotes. -/
def Sum.value (sum : Sum) : Value :=
  match sum.symbol with
  | some name => .symbol { name, addend := sum.addend }
  | none => .const sum.addend

/-- The value that the text denotes, surrounding white space aside. -/
def parse? (cs : List Char) : Option Value :=
  let text := Text.trim cs
  match text with
  | [] => none
  | _ =>
    match Number.parse? text with
    | some n => some (.const n)
    | none => ((terms text).foldlM Sum.add? {}).map Sum.value

end Value

end Stm8
