import Stm8.BigEndian
import Stm8.Form.Catalog
import Stm8.Memory

/-!
# Instructions in memory

`Instruction.read` reads the instruction at an address: one byte, a second one
if the first selects an opcode page, and then, if a form has that opcode, the
bytes of its fields. The result says which form it is and which number each
operand field holds. An opcode that no form has is data of one or two bytes; the
end of a program inside an instruction is data too (`Content.truncated`).

Reading knows no symbols. How an instruction is written, with or without them,
is the matter of `Stm8.Instruction.Printer`.
-/

namespace Stm8

/-! ## What is found -/

/-- What was found in memory. -/
inductive Content where
  /-- An instruction of this form; `fields` are the numbers in its operand
  fields, in the order as written, with zero for a slot without a field. -/
  | known (form : Form) (fields : List Nat)
  /-- Bytes of an opcode that no form has. -/
  | unknown
  /-- Bytes of an instruction whose end is missing. -/
  | truncated
  deriving DecidableEq, Repr, Inhabited

/-- What was found at an address. -/
structure Instruction where
  /-- The address of the first byte. -/
  address : UInt32
  /-- The bytes. -/
  bytes : List UInt8
  /-- What they are. -/
  content : Content
  deriving DecidableEq, Repr, Inhabited

/-! ## Fields and keys -/

/-- The key under which the opcode is found: its bytes as one number. -/
def opcodeKey (bytes : List UInt8) : UInt16 :=
  UInt16.ofNat (readBigEndian bytes)

/-- The numbers in consecutive fields of the given widths. -/
def splitFields : List Nat → List UInt8 → List Nat
  | [], _ => []
  | width :: widths, bytes =>
    readBigEndian (bytes.take width) :: splitFields widths (bytes.drop width)

/-- The numbers in the operand fields, in the order as written. -/
def Form.fields (f : Form) (bytes : List UInt8) : List Nat :=
  f.emission (splitFields ((f.emission f.modes).map Mode.width) bytes)

namespace Instruction

/-- The number of bytes. -/
def size (i : Instruction) : Nat :=
  i.bytes.length

/-- The form, if there is one. -/
def form? (i : Instruction) : Option Form :=
  match i.content with
  | .known form _ => some form
  | _ => none

/-- Whether the bytes are no instruction. -/
def isUnknown (i : Instruction) : Bool :=
  i.form?.isNone

/-- Whether the bytes are the beginning of an instruction. -/
def isTruncated (i : Instruction) : Bool :=
  i.content == .truncated

/-- The opcode, or what stands in its place: the number that the bytes of
unknown data form, and the first byte of an instruction without end. -/
def opcode (i : Instruction) : UInt16 :=
  match i.content with
  | .known form _ => form.opcode
  | .unknown => opcodeKey i.bytes
  | .truncated => opcodeKey (i.bytes.take 1)

/-! ## Reading -/

/-- Reads on after the bytes of an opcode that belongs to this form: all that the form is
long behind them (`fieldWidth_of_readsOpcode`). -/
def readFields (address : UInt32) (opcode : List UInt8) : Option Form → Reading Instruction
  | none => .done ⟨address, opcode, .unknown⟩
  | some form =>
    if form.fieldWidth = 0 then .done ⟨address, opcode, .known form (form.fields [])⟩
    else
      .fetch (address + UInt32.ofNat opcode.length) form.fieldWidth fun bytes =>
        .done ⟨address, opcode ++ bytes.toList, .known form (form.fields bytes.toList)⟩

/-- Reads on after the bytes of the opcode. -/
def readBehind (address : UInt32) (opcode : List UInt8) : Reading Instruction :=
  readFields address opcode (catalog.withOpcode? (opcodeKey opcode))

/-- Reads the instruction at `address`. -/
def read (address : UInt32) : Reading Instruction :=
  .fetch address 1 fun first =>
    if isPageByte first[0] then
      .fetch (address + 1) 1 fun second => readBehind address [first[0], second[0]]
    else readBehind address [first[0]]

/-- The end of a program, in the middle of an instruction. -/
def ofTail (address : UInt32) (bytes : List UInt8) : Instruction :=
  ⟨address, bytes, .truncated⟩

end Instruction

/-- The instruction at `address`. -/
def decode (source : ByteSource) (address : UInt32) : Except Problem Instruction :=
  ((Instruction.read address).run source).mapError fun q => .unreadable q.address q.length

end Stm8
