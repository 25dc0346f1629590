import Stm8.Mode

/-!
# Instruction forms

A `Form` is one way to write an instruction: a mnemonic, the mode of each
operand in the order of the source, and the opcode. The opcode is one byte, or
a page byte and one more, and the operand fields follow it. `Form.emission`
says in which order: as written, except for the three forms of `mov` from
memory to memory or of an immediate to memory, which put the source first.
-/

namespace Stm8

/-- One form of an instruction. -/
structure Form where
  /-- The mnemonic in small letters. -/
  mnemonic : String
  /-- The mode of each operand, as written. -/
  modes : List Mode
  /-- The opcode, with the page byte in the upper half if it has one. -/
  opcode : UInt16
  deriving DecidableEq, Repr, Inhabited

/-- Selects the page of bit operations, long pointers and 16-bit arithmetic. -/
def pageBits : UInt8 := 0x72

/-- Selects the page in which Y stands for X. -/
def pageY : UInt8 := 0x90

/-- Selects the page of short pointers indexed by Y. -/
def pageYPointer : UInt8 := 0x91

/-- Selects the page of short pointers, indexed by X or not at all. -/
def pageXPointer : UInt8 := 0x92

/-- The bytes that select an opcode page. No one-byte opcode is one of them. -/
def pageBytes : List UInt8 := [pageBits, pageY, pageYPointer, pageXPointer]

/-- Whether the byte selects an opcode page, so that the opcode has two
bytes. -/
def isPageByte (b : UInt8) : Bool :=
  pageBytes.contains b

/-- The number of bytes of `n` from its first one that is not zero. Zero itself
takes one byte. -/
def byteWidth (n : UInt32) : Nat :=
  if n < 0x100 then 1 else if n < 0x10000 then 2 else if n < 0x1000000 then 3 else 4

namespace Form

/-- The bytes of the opcode, page byte first. -/
def opcodeBytes (f : Form) : List UInt8 :=
  if f.opcode < 0x100 then [f.opcode.toUInt8]
  else [(f.opcode >>> 8).toUInt8, f.opcode.toUInt8]

/-- The number of bytes of the opcode. -/
def opcodeWidth (f : Form) : Nat :=
  byteWidth f.opcode.toUInt32

/-- The bytes of all operand fields together. -/
def fieldWidth (f : Form) : Nat :=
  (f.modes.map Mode.width).foldr (· + ·) 0

/-- The bytes of the whole instruction. -/
def length (f : Form) : Nat :=
  f.opcodeWidth + f.fieldWidth

theorem fieldWidth_eq (f : Form) : f.fieldWidth = f.length - f.opcodeWidth :=
  (Nat.add_sub_cancel_left ..).symm

/-- Whether the operand fields follow the opcode in reverse. -/
def reversed (f : Form) : Bool :=
  f.opcode == 0x35 || f.opcode == 0x45 || f.opcode == 0x55

/-- One item for each operand, taken from the order as written to the order of
the fields, or back: the arrangement is its own inverse. -/
def emission {α : Type} (f : Form) (items : List α) : List α :=
  if f.reversed then items.reverse else items

/-- The form as text: the mnemonic and the modes. -/
def text (f : Form) : String :=
  match f.modes with
  | [] => f.mnemonic
  | modes => f.mnemonic ++ " " ++ ",".intercalate (modes.map Mode.text)

@[simp] theorem emission_emission {α : Type} (f : Form) (items : List α) :
    f.emission (f.emission items) = items := by
  unfold emission
  split <;> simp

@[simp] theorem length_emission {α : Type} (f : Form) (items : List α) :
    (f.emission items).length = items.length := by
  unfold emission
  split <;> simp

end Form

end Stm8
