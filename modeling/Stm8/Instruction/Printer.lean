import Stm8.Instruction

/-!
# Writing instructions

An instruction is written as assembly text. Every field that holds an address or
a number is looked up among the known names (`Names`), and a name stands for its
number; the field of a relative branch stays a displacement, and its target is
shown behind the text. Names in short fields get the ending `.s`, so that the
text is read back as the same form.
-/

namespace Stm8

/-! ## Names -/

/-- The names of addresses. -/
abbrev Names := UInt32 → Option String

/-- The names of a list of pairs, the first pair of an address counting. -/
def Names.ofList (pairs : List (UInt32 × String)) : Names := fun address =>
  (pairs.find? (·.1 == address)).map (·.2)

/-- The displacement as a constant of two digits. -/
def displacementText (d : Int) : String :=
  (if d < 0 then "-0x" else "0x") ++ Text.hex 2 d.natAbs

namespace Mode

/-! ## One operand -/

/-- Whether the slot has a field that holds an address or a number as such. -/
def isAbsolute (m : Mode) : Bool :=
  0 < m.width && m != relative

/-- The category of the operands that are written for the slot. -/
def kind : Mode → Operand.Kind
  | bit _ | byte | word => .immediate
  | reg r => .register r
  | relative | longMem | extMem => .directMemory
  | shortMem => .shortDirectMemory
  | indX => .indexedX
  | indY => .indexedY
  | shortOffX | longOffX | extOffX => .offsetX
  | shortOffY | longOffY | extOffY => .offsetY
  | shortOffSp => .offsetSp
  | shortPtr | longPtr => .pointerNear
  | shortPtrX | longPtrX => .pointerNearX
  | shortPtrY | longPtrY => .pointerNearY
  | farPtr => .pointerFar
  | farPtrX => .pointerFarX
  | farPtrY => .pointerFarY

/-- What is written behind the value: `.w` behind a long pointer, and `.s`
behind a name in a short field that could be read as a long one. -/
def ending (m : Mode) (named : Bool) : String :=
  match m with
  | longPtr | longPtrX | longPtrY => ".w"
  | shortOffX | shortOffY | shortPtr | shortPtrX | shortPtrY => if named then ".s" else ""
  | _ => ""

/-- The operand that is written for the number `field` in the slot, with the name
that the number has. -/
def operandText (m : Mode) (field : Nat) (name : Option String) : String :=
  match m with
  | bit n => m.kind.spell (Text.decimal n.val)
  | relative => m.kind.spell (displacementText (readSigned (UInt8.ofNat field)))
  | m =>
    m.kind.spell
      (name.getD ("0x" ++ Text.hex (2 * m.width) field) ++ m.ending name.isSome)

end Mode

namespace Instruction

/-! ## Look-ups -/

/-- Each slot of the form with the number in its field. -/
def slots (i : Instruction) : List (Mode × Nat) :=
  match i.content with
  | .known form fields => form.modes.zip fields
  | _ => []

/-- The target of a branch with displacement `d`, modulo 2^24. -/
def targetOf (i : Instruction) (d : Int) : UInt32 :=
  UInt32.ofInt ((i.address.toNat + i.size + d) % 0x1000000)

/-- The address that is looked up for the number in a slot. -/
def lookupOf? (i : Instruction) : Mode × Nat → Option UInt32
  | (.relative, field) => some (i.targetOf (readSigned (UInt8.ofNat field)))
  | (m, field) => if m.isAbsolute then some (UInt32.ofNat field) else none

/-- The addresses that are looked up, in the order of the fields in memory. -/
def lookups (i : Instruction) : List UInt32 :=
  match i.content with
  | .known form _ => (form.emission i.slots).filterMap i.lookupOf?
  | _ => []

/-- The target of a relative branch. -/
def target? (i : Instruction) : Option UInt32 :=
  (i.slots.find? (·.1 == .relative)).bind i.lookupOf?

/-! ## Text -/

/-- The mnemonic; data are written as values of a directive. -/
def mnemonic (i : Instruction) : String :=
  match i.content with
  | .known form _ => form.mnemonic
  | .unknown => if i.size = 2 then ".word" else ".byte"
  | .truncated => ".byte"

/-- The operands as text, in the order as written. -/
def operands (i : Instruction) (names : Names) : List String :=
  match i.content with
  | .known _ _ =>
    i.slots.map fun (m, field) =>
      m.operandText field (if m.isAbsolute then names (UInt32.ofNat field) else none)
  | .unknown => ["0x" ++ Text.hex (2 * i.size) i.opcode.toNat]
  | .truncated => i.bytes.map fun b => "0x" ++ Text.hex 2 b.toNat

/-- The instruction as assembly text. -/
def text (i : Instruction) (names : Names) : String :=
  match i.operands names with
  | [] => i.mnemonic
  | operands => i.mnemonic ++ " " ++ ",".intercalate operands

/-- The comment behind the text: the target of a branch with its name, or why
there are only data. -/
def remark (i : Instruction) (names : Names) : String :=
  match i.target? with
  | some target =>
    " ; 0x" ++ Text.hex 4 target.toNat ++
      match names target with
      | some name => " <" ++ name ++ ">"
      | none => ""
  | none =>
    if i.isTruncated then " ; truncated" else if i.isUnknown then " ; unknown" else ""

/-- The instruction as a line of a disassembly. -/
def display (i : Instruction) (names : Names) : String :=
  i.text names ++ i.remark names

end Instruction

end Stm8
