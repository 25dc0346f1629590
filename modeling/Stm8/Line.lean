import Stm8.Operand.Parser
import Stm8.Text.Slice

/-!
# Source lines

A line holds labels, each with a colon behind it, then a command with its
operands, and a comment behind a semicolon; all of them may be absent. Operands
are separated by commas outside of brackets, and `(` and `[` count alike.

`Line.parse` splits a line and finds the place of every part. Operands are left
as text, because an instruction and a directive read them differently.
-/

namespace Stm8

open Stm8.Text (Slice)

/-! ## Parts -/

/-- A part of a line. -/
structure Part where
  /-- Its text. -/
  text : String
  /-- Its place. -/
  span : Span
  deriving DecidableEq, Repr, Inhabited

/-- An instruction or a directive. -/
structure Command where
  /-- The mnemonic or the name of the directive. -/
  name : Part
  /-- The operands. -/
  operands : List Part
  /-- The text of the whole command, up to a comment. -/
  text : String
  deriving DecidableEq, Repr, Inhabited

/-- A source line, split into its parts. -/
structure Line where
  /-- The labels that the line defines. -/
  labels : List Part
  /-- The command, if the line has one. -/
  command : Option Command
  deriving DecidableEq, Repr, Inhabited

/-- The greatest number of operands that an instruction has. -/
def maxOperands : Nat := 3

/-- How brackets can fail to pair up. -/
inductive Imbalance where
  /-- The bracket behind this many bytes closes nothing. -/
  | unopened (start : Nat)
  /-- A bracket is never closed. -/
  | unclosed
  deriving DecidableEq, Repr, Inhabited

namespace Line

/-! ## Labels -/

/-- Whether the character can stand in a label or in the name of a command. -/
def inWord (c : Char) : Bool :=
  !Text.isBlank c && c != ':'

/-- The labels at the front, and what follows them up to the end, without white
space in front. -/
def splitLabels (s : Slice) : List Slice × Slice :=
  let rest := s.trimStart
  let word := rest.takeWhile inWord
  let after := rest.dropWhile inWord
  match _h : after.text with
  | ':' :: tail =>
    if isSymbolName word.text then
      let (labels, body) := splitLabels ⟨after.start + 1, tail⟩
      (word :: labels, body)
    else ([], rest)
  | _ => ([], rest)
termination_by s.text.length
decreasing_by
  have h1 : after.text.length ≤ rest.text.length :=
    (List.dropWhile_sublist _).length_le
  have h2 : rest.text.length ≤ s.text.length :=
    (List.dropWhile_sublist _).length_le
  rw [_h] at h1
  simp only [List.length_cons] at h1
  omega

/-! ## Operands -/

/-- The text up to the next comma outside of brackets, and the slices between the
commas. The text follows `pos` bytes, and `depth` brackets are open in front of
it. No text opens more brackets than it has characters, so 32 bits are enough to
count them in a text of less than 2^31 (`bracketDepth_bounds`). -/
def splitAtCommas (depth pos : Nat) : List Char → Except Imbalance (List Char × List Slice)
  | [] => if depth = 0 then .ok ([], []) else .error .unclosed
  | c :: cs =>
    let next := pos + c.utf8Size
    if c == '(' || c == '[' then
      (splitAtCommas (depth + 1) next cs).map fun (head, rest) => (c :: head, rest)
    else if c == ')' || c == ']' then
      if depth = 0 then .error (.unopened pos)
      else (splitAtCommas (depth - 1) next cs).map fun (head, rest) => (c :: head, rest)
    else if c == ',' && depth = 0 then
      (splitAtCommas 0 next cs).map fun (head, rest) => ([], ⟨next, head⟩ :: rest)
    else (splitAtCommas depth next cs).map fun (head, rest) => (c :: head, rest)

/-- The slices between the commas of `s` that stand outside of brackets. -/
def splitOperands (s : Slice) : Except Imbalance (List Slice) :=
  (splitAtCommas 0 s.start s.text).map fun (head, rest) => ⟨s.start, head⟩ :: rest

/-- The place of `length` bytes behind the first `start` bytes of the line with
this number, before which the source has `offset` bytes. -/
def spanAt (number offset start length : Nat) : Span :=
  { line := number, column := start + 1, offset := offset + start, length }

/-- The part that the slice is. -/
def part (number offset : Nat) (s : Slice) : Part :=
  ⟨String.ofList s.text, spanAt number offset s.start (Text.width s.text)⟩

/-- The operands that stand between the commas, none of them empty. -/
def operandParts (number offset : Nat) : List Slice → Except Problem (List Part)
  | [] => .ok []
  | s :: rest => do
    let p := part number offset s.trim
    if s.trim.text.isEmpty then .error (.malformed .emptyOperand p.span)
    else
      let ps ← operandParts number offset rest
      return p :: ps

/-- The operands of a command. -/
def operands (number offset : Nat) (args : Slice) : Except Problem (List Part) := do
  if (Text.trim args.text).isEmpty then return []
  match splitOperands args with
  | .error (.unopened start) => .error (.malformed .unbalanced (spanAt number offset start 1))
  | .error .unclosed =>
    .error (.malformed .unbalanced (spanAt number offset args.start (Text.width args.text)))
  | .ok slices =>
    let ps ← operandParts number offset slices
    match ps.drop maxOperands with
    | [] => return ps
    | extra :: _ => .error (.malformed (.tooManyOperands ps.length) extra.span)

/-! ## Whole lines -/

/-- The parts of a line, which has this number and before which the source has
`offset` bytes. -/
def parse (line : List Char) (number offset : Nat) : Except Problem Line := do
  let (labels, body) := splitLabels ⟨0, line.takeWhile (· != ';')⟩
  let labels := labels.map (part number offset)
  if body.text.isEmpty then return { labels, command := none }
  let ops ← operands number offset (body.dropWhile inWord)
  let command :=
    { name := part number offset (body.takeWhile inWord)
      operands := ops
      text := String.ofList (Text.trim body.text) }
  return { labels, command := some command }

end Line

/-- The operands of a list of parts, read as operands of an instruction. -/
def readOperands : List Part → Except Problem (List Operand)
  | [] => .ok []
  | p :: ps => do
    let op ← Operand.parse p.text.toList p.span
    let ops ← readOperands ps
    return op :: ops

end Stm8
