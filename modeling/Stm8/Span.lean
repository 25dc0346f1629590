import Stm8.Text.Digits

/-!
# Source locations

A `Span` says where in the source text an operand or a statement stands. All
its counts are bytes, see `Text.width`.
-/

namespace Stm8

/-- A place in source text. Lines and columns count from one, so line zero
marks an operand that was not read from a text. -/
structure Span where
  /-- Line number, counted from one. -/
  line : Nat := 0
  /-- Column of the first byte, counted from one. -/
  column : Nat := 0
  /-- Bytes before the place, from the start of the source. -/
  offset : Nat := 0
  /-- Bytes in the place. -/
  length : Nat := 0
  deriving DecidableEq, Repr, Inhabited

namespace Span

/-- The span of operands that were built and not read. -/
def nowhere : Span := {}

/-- Whether the span points into no text. -/
def isNowhere (s : Span) : Bool :=
  s.line == 0

/-- `line:column`, as in front of messages. -/
def text (s : Span) : String :=
  Text.decimal s.line ++ ":" ++ Text.decimal s.column

end Span

end Stm8
