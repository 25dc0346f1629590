import Stm8.Quantity
import Stm8.Text.Blank
import Stm8.Text.Digits

/-!
# Numbers in source text

`0x1F`, `$1F`, `0b101`, `%101` and `42`, each with an optional minus sign in
front and with underscores anywhere among the digits. `Number.parse?` reads
one. It looks at the mark of the radix first (`radixMark`), then drops the
underscores and reads what is left positionally (`magnitude?`).
-/

namespace Stm8.Number

open Stm8.Text

/-- The radix that the front of an unsigned number announces, and the digits
after the mark. -/
def radixMark : List Char → Nat × List Char
  | '0' :: 'x' :: ds => (16, ds)
  | '0' :: 'X' :: ds => (16, ds)
  | '$' :: ds => (16, ds)
  | '0' :: 'b' :: ds => (2, ds)
  | '0' :: 'B' :: ds => (2, ds)
  | '%' :: ds => (2, ds)
  | ds => (10, ds)

/-- The value of an unsigned number. Underscores separate digits and count for
nothing; the value must be a quantity. -/
def magnitude? (cs : List Char) : Option Nat :=
  let (radix, digits) := radixMark cs
  (readDigits? radix (digits.filter (· != '_'))).filter (fun n => (n : Int) ≤ Quantity.greatest)

/-- The number that the text denotes, surrounding white space aside. White
space may also follow the minus sign. -/
def parse? (cs : List Char) : Option Int :=
  match trim cs with
  | '-' :: rest => (magnitude? (trimStart rest)).map fun n => -(n : Int)
  | text => (magnitude? text).map fun n => (n : Int)

end Stm8.Number
