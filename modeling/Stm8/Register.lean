import Stm8.Text.Ascii

/-!
# Registers

The nine registers that operand text can name.
-/

namespace Stm8

/-- A register of the processor. -/
inductive Register where
  /-- The accumulator. -/
  | a
  /-- The 16-bit index register X. -/
  | x
  /-- The 16-bit index register Y. -/
  | y
  /-- The stack pointer. -/
  | sp
  /-- The condition codes. -/
  | cc
  /-- The low byte of X. -/
  | xl
  /-- The high byte of X. -/
  | xh
  /-- The low byte of Y. -/
  | yl
  /-- The high byte of Y. -/
  | yh
  deriving DecidableEq, Repr, Inhabited

namespace Register

/-- All registers. -/
def all : List Register := [a, x, y, sp, cc, xl, xh, yl, yh]

/-- The name in capitals, which is how operands are written out. -/
def name : Register → String
  | a => "A"
  | x => "X"
  | y => "Y"
  | sp => "SP"
  | cc => "CC"
  | xl => "XL"
  | xh => "XH"
  | yl => "YL"
  | yh => "YH"

/-- The register that the text names, in either case. -/
def named? (cs : List Char) : Option Register :=
  all.find? fun r => Text.sameLetters r.name.toList cs

theorem mem_all (r : Register) : r ∈ all := by
  cases r <;> decide

theorem named?_name (r : Register) : named? r.name.toList = some r := by
  cases r <;> decide

end Register

end Stm8
