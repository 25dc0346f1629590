import Stm8.Form.Table
import Stm8.Problem
import Stm8.Text.Ascii

/-!
# Selecting a form

Which form an instruction takes: the first one of its mnemonic whose slots take
the operands. `Operand.Kind.fits` says whether a slot takes an operand, `Form.accepts`
whether all slots do, and `select` is the search. Short forms stand first in the
table, so a value that fits eight bits gets the short form and every other value
falls through to a longer one.

`resolve` searches the whole table; the search through an index, which has the
same result, is in `Stm8.Form.Catalog`.
-/

namespace Stm8

/-! ## What a slot takes -/

/-- Whether an operand of category `k` with the given value may fill a slot of
mode `m`. An absent value counts as a symbol that is not short. -/
def Operand.Kind.fits (k : Kind) (value : Option Value) (m : Mode) : Bool :=
  let fits8 := value.any Value.fits8
  match k, m with
  | .register r, .reg r' => r == r'
  | .immediate, .byte => true
  | .immediate, .word => true
  | .immediate, .bit n => n == 0 || value.bind Value.const? == some (n.val : Int)
  | .indexedX, .indX => true
  | .indexedY, .indY => true
  | .offsetX, .shortOffX => fits8
  | .offsetX, .longOffX => true
  | .offsetX, .extOffX => true
  | .offsetY, .shortOffY => fits8
  | .offsetY, .longOffY => true
  | .offsetY, .extOffY => true
  | .offsetSp, .shortOffSp =>
    -- no form has a wider offset, so a symbol may lie anywhere
    match value.bind Value.const? with
    | some v => v < 0x100
    | none => true
  | .pointerNear, .shortPtr => fits8
  | .pointerNear, .longPtr => true
  | .pointerNearX, .shortPtrX => fits8
  | .pointerNearX, .longPtrX => true
  | .pointerNearY, .shortPtrY => fits8
  | .pointerNearY, .longPtrY => true
  | .pointerFar, .farPtr => true
  | .pointerFarX, .farPtrX => true
  | .pointerFarY, .farPtrY => true
  | .directMemory, .relative => true
  | .directMemory, .longMem => true
  | .directMemory, .extMem => true
  | .shortDirectMemory, .shortMem => true
  | _, _ => false

/-- Whether a slot of mode `m` takes the operand. -/
def Operand.fits (op : Operand) (m : Mode) : Bool :=
  op.kind.fits op.value m

/-- Whether the form takes the operands: as many as it has slots, and each one
fits its slot. -/
def Form.accepts (f : Form) (ops : List Operand) : Bool :=
  f.modes.length == ops.length && (f.modes.zip ops).all fun (m, op) => op.fits m

/-! ## The search -/

/-- The operands as text, with commas between them. -/
def Operand.texts (ops : List Operand) : String :=
  ",".intercalate (ops.map Operand.text)

/-- The place of the first operand. -/
def Operand.firstSpan (ops : List Operand) : Span :=
  match ops with
  | [] => .nowhere
  | op :: _ => op.span

/-- The first of the candidates that accepts the operands. Having no candidates
at all is a problem of the mnemonic, and having no suitable one a problem of the
operands. -/
def select (mnemonic : String) (candidates : List Form) (ops : List Operand) :
    Except Problem Form :=
  match candidates.find? (·.accepts ops) with
  | some f => .ok f
  | none =>
    if candidates.isEmpty then .error (.unknownMnemonic mnemonic (Operand.firstSpan ops))
    else .error (.noMatch mnemonic (Operand.texts ops) (Operand.firstSpan ops))

/-- Whether the form has this mnemonic, in either case. -/
def Form.hasMnemonic (f : Form) (mnemonic : String) : Bool :=
  Text.sameLetters f.mnemonic.toList mnemonic.toList

/-- The form that an instruction takes, by a search through the table. -/
def resolve (mnemonic : String) (ops : List Operand) : Except Problem Form :=
  select mnemonic (Form.all.filter (·.hasMnemonic mnemonic)) ops

end Stm8
