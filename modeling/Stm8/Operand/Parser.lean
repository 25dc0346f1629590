import Stm8.Problem
import Stm8.Text.Ascii
import Stm8.Value.Parser

/-!
# Reading operands

The first character of the trimmed text decides what an operand can be: `#` an
immediate, `[` a pointer, `(` something indexed, and anything else a register
or an address. `Operand.classify` finds the category and the value;
`Operand.parse` puts the result into its place. Register names and the endings
`.s`, `.short`, `.w` and `.e` may be spelled in either case.

Well-formed text that names no addressing form, such as `(A)`, `(5,A)` or
`([p],SP)`, is an operand of the category `illegal`, so that it is reported when
no form accepts it.
-/

namespace Stm8

namespace Operand

/-! ## Values with endings -/

/-- The value that the text denotes. -/
def valueIn (cs : List Char) : Except Malformation Value :=
  match Value.parse? cs with
  | some v => .ok v
  | none => .error (.invalidValue (String.ofList (Text.trim cs)))

/-- The text before an ending `.short` or `.s`, and whether there was one. -/
def splitShort (cs : List Char) : List Char × Bool :=
  let text := Text.trimEnd cs
  match Text.dropEnding? ".short".toList text with
  | some body => (Text.trimEnd body, true)
  | none =>
    match Text.dropEnding? ".s".toList text with
    | some body => (Text.trimEnd body, true)
    | none => (text, false)

/-- The value that the text denotes, its symbol marked as lying in page zero
exactly if the text ends in `.short` or `.s`. -/
def shortValueIn (cs : List Char) : Except Malformation Value :=
  let (body, short) := splitShort cs
  (valueIn body).map (Value.markShort short)

/-- The value between the brackets of a pointer, and whether the pointer is
far. -/
def pointerIn (cs : List Char) : Except Malformation (Value × Bool) :=
  let text := Text.trim cs
  match Text.dropEnding? ".e".toList text with
  | some body => (valueIn body).map (·, true)
  | none =>
    match Text.dropEnding? ".w".toList text with
    | some body => (valueIn body).map (·, false)
    | none => (shortValueIn text).map (·, false)

/-! ## Brackets -/

/-- What stands between `opening` in front and `closing` at the end. -/
def enclosed? (opening closing : Char) : List Char → Option (List Char)
  | [] => none
  | c :: cs => if c == opening && cs.getLast? == some closing then some cs.dropLast else none

/-- The texts before and behind the last comma. -/
def splitAtLastComma? (cs : List Char) : Option (List Char × List Char) :=
  match cs.reverse.dropWhile (· != ',') with
  | [] => none
  | _ :: before => some (before.reverse, (cs.reverse.takeWhile (· != ',')).reverse)

/-- What stands between the brackets of `text`. -/
def insideBrackets (text : List Char) : Except Malformation (List Char) :=
  match enclosed? '[' ']' text with
  | some inner => .ok inner
  | none => .error (.unbalancedIn (String.ofList text))

/-! ## The categories -/

/-- The category of a pointer that a register may index. -/
def pointerKind : Register → Bool → Kind
  | .x, false => .pointerNearX
  | .y, false => .pointerNearY
  | .x, true => .pointerFarX
  | .y, true => .pointerFarY
  | _, _ => .illegal

/-- The category of an offset to a register. -/
def offsetKind : Register → Kind
  | .x => .offsetX
  | .y => .offsetY
  | .sp => .offsetSp
  | _ => .illegal

/-- An operand that names no addressing form. -/
def noForm : Kind × Option Value := (.illegal, none)

/-- A pointer, `[v]`, `[v.w]` or `[v.e]`. -/
def classifyPointer (text : List Char) : Except Malformation (Kind × Option Value) := do
  let inner ← insideBrackets text
  if (Register.named? (Text.trim inner)).isSome then return noForm
  let (value, far) ← pointerIn inner
  return (if far then .pointerFar else .pointerNear, some value)

/-- A register that indexes a pointer or an offset: `([v],X)` or `(v,X)`. -/
def classifyIndexed (base : List Char) (index : Register) :
    Except Malformation (Kind × Option Value) := do
  if base.head? == some '[' then
    let (value, far) ← pointerIn (← insideBrackets base)
    match pointerKind index far with
    | .illegal => return noForm
    | kind => return (kind, some value)
  else
    match offsetKind index with
    | .illegal => return noForm
    | kind => return (kind, some (← shortValueIn base))

/-- What stands in parentheses: `(X)`, or an indexed pointer or offset. -/
def classifyParenthesized (text : List Char) : Except Malformation (Kind × Option Value) :=
  match enclosed? '(' ')' text with
  | none => .error (.unbalancedIn (String.ofList text))
  | some inner =>
    match splitAtLastComma? inner with
    | none =>
      match Register.named? (Text.trim inner) with
      | some .x => .ok (.indexedX, none)
      | some .y => .ok (.indexedY, none)
      | some _ => .ok noForm
      | none => .error (.expectedIndexRegister (String.ofList text))
    | some (base, index) =>
      match Register.named? (Text.trim index) with
      | none => .ok noForm
      | some r => classifyIndexed (Text.trim base) r

/-- A register, or an address that may be marked as lying in page zero. -/
def classifyPlain (text : List Char) : Except Malformation (Kind × Option Value) :=
  match Register.named? text with
  | some r => .ok (.register r, none)
  | none =>
    let (body, short) := splitShort text
    (valueIn body).map fun value =>
      (if short then .shortDirectMemory else .directMemory, some value)

/-- The category and the value of the operand that the text spells. -/
def classify (cs : List Char) : Except Malformation (Kind × Option Value) :=
  match Text.trim cs with
  | [] => .error .missingOperand
  | '#' :: rest => (valueIn rest).map fun value => (.immediate, some value)
  | '[' :: rest => classifyPointer ('[' :: rest)
  | '(' :: rest => classifyParenthesized ('(' :: rest)
  | text => classifyPlain text

/-- The operand that the text spells, standing at `span`. -/
def parse (cs : List Char) (span : Span := .nowhere) : Except Problem Operand :=
  match classify cs with
  | .ok (kind, value) => .ok { kind, value, span }
  | .error cause => .error (.malformed cause span)

end Operand

end Stm8
