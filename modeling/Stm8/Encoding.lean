import Stm8.Form.Catalog
import Stm8.Relocation

/-!
# Encoding

An instruction is encoded as the bytes of its opcode followed by one field for
every operand that has one. A bit number has no field: it is added to the last
byte of the opcode. Where an operand is a symbol, the field is filled with
`filler` and a relocation is requested; where it is a constant that the field
cannot hold, the low bytes are written and a problem is noted, so that the
length of an instruction never depends on the values of its operands.

`Form.encode` does this for a given form, `encode` selects the form first.
-/

namespace Stm8

/-! ## Encoded instructions -/

/-- The byte that stands where the value of a symbol is still missing. -/
def filler : UInt8 := 0xAA

/-- An encoded instruction. -/
structure Encoding where
  /-- The machine code. -/
  code : CodeBuffer := .empty
  /-- Requests for the symbols among the operands. -/
  relocations : List Relocation := []
  /-- Constants that their fields cannot hold. -/
  diagnostics : List Problem := []
  deriving DecidableEq, Repr, Inhabited

namespace Encoding

/-- Whether nothing is missing and nothing is wrong. -/
def isComplete (e : Encoding) : Bool :=
  e.relocations.isEmpty && e.diagnostics.isEmpty

/-! ## One slot -/

/-- The encoding with one more request. -/
def request (e : Encoding) (r : Relocation) : Encoding :=
  { e with relocations := e.relocations ++ [r] }

/-- The encoding with a note of the constant `v` if it leaves the range of a
slot of mode `m`. -/
def checkRange (e : Encoding) (m : Mode) (v : Int) (span : Span) : Encoding :=
  let (least, greatest) := m.range
  if v < least || greatest < v then
    { e with diagnostics := e.diagnostics ++ [.outOfRange v least greatest span] }
  else e

/-- The encoding with bit number `v` in place of bit number `n`, if it is one;
opcodes of neighbouring bits differ by two. -/
def foldBit (e : Encoding) (last : Nat) (n : Fin 8) (v : Int) : Encoding :=
  if 0 ≤ v && v ≤ 7 then
    { e with code := e.code.modify last (· + 2 * UInt8.ofInt (v - n.val)) }
  else e

/-- The encoding with more bytes. -/
def append (e : Encoding) (bytes : List UInt8) : Except CodeBuffer.Overflow Encoding :=
  (e.code.append bytes).map fun code => { e with code }

/-- The encoding with the value of one operand in a slot of mode `m`, where
`last` is the place of the last opcode byte. -/
def place (e : Encoding) (last : Nat) (m : Mode) (op : Operand) : Except Mismatch Encoding :=
  match op.value, m.bit? with
  | none, _ => .ok e
  | some (.const v), some n => .ok ((e.foldBit last n v).checkRange m v op.span)
  | some (.symbol s), some _ => .ok (e.request ⟨last, .bitNumber, s.name, s.addend, op.span⟩)
  | some (.const v), none =>
    if m.width = 0 then .ok e
    else ((e.checkRange m v op.span).append (bigEndian m.width v)).mapError .overflow
  | some (.symbol s), none =>
    if m.width = 0 then .ok e
    else
      match m.relocation? with
      | none => .error (.notRelocatable m)
      | some kind =>
        ((e.request ⟨e.code.size, kind, s.name, s.addend, op.span⟩).append
          (List.replicate m.width filler)).mapError .overflow

end Encoding

namespace Form

/-! ## Whole instructions -/

/-- Whether the operand with this number may fill a slot of mode `m`. -/
def checkSlot (position : Nat) (m : Mode) (op : Operand) : Except Mismatch Unit :=
  if m.takesValue && op.value.isNone then .error (.noValue position)
  else if !op.fits m then .error (.doesNotFit position op m)
  else .ok ()

/-- Whether the operands may fill the slots, which are numbered from
`position` on. -/
def checkSlots (position : Nat) : List (Mode × Operand) → Except Mismatch Unit
  | [] => .ok ()
  | (m, op) :: rest => do
    checkSlot position m op
    checkSlots (position + 1) rest

/-- Whether the operands may fill the slots of the form. -/
def check (f : Form) (ops : List Operand) : Except Mismatch Unit :=
  if ops.length ≠ f.modes.length then .error (.operandCount f.modes.length ops.length)
  else checkSlots 1 (f.modes.zip ops)

/-- The encoding of the operands in this form, which they have to fit. -/
def assemble (f : Form) (ops : List Operand) : Except Mismatch Encoding := do
  f.check ops
  let start ← (Encoding.append {} f.opcodeBytes).mapError .overflow
  (f.emission (f.modes.zip ops)).foldlM (fun e (m, op) => e.place (f.opcodeWidth - 1) m op) start

/-- The encoding of the operands in this form. Operands that do not fit it are a
fault of the caller, because forms are selected to fit. -/
def encode (f : Form) (ops : List Operand) : Except Problem Encoding :=
  (f.assemble ops).mapError (.noEncoding f.mnemonic)

end Form

/-- The encoding of an instruction. -/
def encode (mnemonic : String) (ops : List Operand) : Except Problem Encoding := do
  (← catalog.resolve mnemonic ops).encode ops

end Stm8
