import Stm8.Quantity
import Stm8.Text.Digits

/-!
# Values

The value of an operand is a constant, or a symbol with a constant added to it
whose address is not known until the program is finished. `Value.text` writes
one the way `Value.parse?` reads it.
-/

namespace Stm8

/-- A reference to a symbol. -/
structure SymbolRef where
  /-- The name referred to. -/
  name : String
  /-- A constant added to the value of the symbol. -/
  addend : Int := 0
  /-- Whether the operand was marked `.s` or `.short`: the symbol lies in page
  zero. -/
  short : Bool := false
  deriving DecidableEq, Repr, Inhabited

/-- The value of an operand. -/
inductive Value where
  /-- Known from the text. -/
  | const (v : Int)
  /-- Known when the program is finished. -/
  | symbol (ref : SymbolRef)
  deriving DecidableEq, Repr, Inhabited

/-- The name, with the addend as a decimal term after it unless it is zero. -/
def SymbolRef.text (r : SymbolRef) : String :=
  if r.addend = 0 then r.name
  else if 0 < r.addend then r.name ++ "+" ++ Text.decimal r.addend
  else r.name ++ Text.decimal r.addend

namespace Value

/-- A reference to `name` with nothing added. -/
def ofName (name : String) : Value :=
  symbol { name }

/-- A reference to `name`, which lies in page zero. -/
def ofShortName (name : String) : Value :=
  symbol { name, short := true }

/-- The constant, if the value is one. -/
def const? : Value → Option Int
  | const v => some v
  | symbol _ => none

/-- Whether the value may fill an 8-bit address field: a constant below 256, or
a symbol marked as lying in page zero. -/
def fits8 : Value → Bool
  | const v => 0 ≤ v && v < 0x100
  | symbol r => r.short

/-- Whether the value is a symbol marked as lying in page zero. -/
def isShortSymbol : Value → Bool
  | const _ => false
  | symbol r => r.short

/-- A constant in hexadecimal, or the symbol with its addend. -/
def text : Value → String
  | const v => (if v < 0 then "-0x" else "0x") ++ Text.hex 1 v.natAbs
  | symbol r => r.text

/-- The value with its symbol, if it has one, marked or unmarked as lying in
page zero. -/
def markShort (short : Bool) : Value → Value
  | const v => const v
  | symbol r => symbol { r with short }

end Value

end Stm8
