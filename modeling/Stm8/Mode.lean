import Stm8.Register
import Stm8.Text.Digits

/-!
# Addressing modes

A `Mode` is what one operand slot of an instruction form accepts, at the
precision of the encoding: `(off8,X)` and `(off16,X)` are two modes, and the
eight bit numbers, which are part of the opcode, are eight. Each mode has a
fixed `width`, the bytes of the field that follows the opcode, and a `range`,
the constants that the field can hold.
-/

namespace Stm8

/-! ## The modes -/

/-- There are bit numbers. -/
instance neZero_eight : @NeZero Nat Zero.ofOfNat0 8 := ⟨by decide⟩

/-- What one operand slot of an instruction form accepts. -/
inductive Mode where
  /-- Bit number `n`, which is part of the opcode. -/
  | bit (n : Fin 8)
  /-- A signed 8-bit displacement from the end of the instruction. -/
  | relative
  /-- Exactly this register. -/
  | reg (r : Register)
  /-- An 8-bit immediate. -/
  | byte
  /-- A 16-bit immediate. -/
  | word
  /-- An 8-bit direct address. -/
  | shortMem
  /-- A 16-bit direct address. -/
  | longMem
  /-- A 24-bit direct address. -/
  | extMem
  /-- `(X)` -/
  | indX
  /-- `(Y)` -/
  | indY
  /-- `(off8,X)` -/
  | shortOffX
  /-- `(off16,X)` -/
  | longOffX
  /-- `(off24,X)` -/
  | extOffX
  /-- `(off8,Y)` -/
  | shortOffY
  /-- `(off16,Y)` -/
  | longOffY
  /-- `(off24,Y)` -/
  | extOffY
  /-- `(off8,SP)` -/
  | shortOffSp
  /-- `[ptr8]`: a word pointer in page zero. -/
  | shortPtr
  /-- `[ptr16.w]` -/
  | longPtr
  /-- `([ptr8],X)` -/
  | shortPtrX
  /-- `([ptr16.w],X)` -/
  | longPtrX
  /-- `([ptr8],Y)` -/
  | shortPtrY
  /-- `([ptr16.w],Y)` -/
  | longPtrY
  /-- `[ptr16.e]`: the 16-bit address of a 24-bit pointer cell. -/
  | farPtr
  /-- `([ptr16.e],X)` -/
  | farPtrX
  /-- `([ptr16.e],Y)` -/
  | farPtrY
  deriving DecidableEq, Repr, Inhabited

namespace Mode

/-- All modes. -/
def all : List Mode :=
  [bit 0, bit 1, bit 2, bit 3, bit 4, bit 5, bit 6, bit 7, relative,
    reg .cc, reg .a, reg .x, reg .y, reg .sp, reg .xl, reg .xh, reg .yl, reg .yh,
    byte, word, shortMem, longMem, extMem, indX, indY,
    shortOffX, longOffX, extOffX, shortOffY, longOffY, extOffY, shortOffSp,
    shortPtr, longPtr, shortPtrX, longPtrX, shortPtrY, longPtrY,
    farPtr, farPtrX, farPtrY]

/-! ## Fields -/

/-- Bytes of the operand field. The far pointer modes hold the 16-bit address
of their pointer cell, so they are two bytes wide. -/
def width : Mode → Nat
  | bit _ | reg _ | indX | indY => 0
  | relative | byte | shortMem | shortOffX | shortOffY | shortOffSp
  | shortPtr | shortPtrX | shortPtrY => 1
  | word | longMem | longOffX | longOffY | longPtr | longPtrX | longPtrY
  | farPtr | farPtrX | farPtrY => 2
  | extMem | extOffX | extOffY => 3

/-- The bit number of a bit slot. -/
def bit? : Mode → Option (Fin 8)
  | bit n => some n
  | _ => none

/-- The register that the slot demands. -/
def register? : Mode → Option Register
  | reg r => some r
  | _ => none

/-- Whether an operand in this slot carries a value: an address, an offset, an
immediate or a bit number. -/
def takesValue (m : Mode) : Bool :=
  0 < m.width || m.bit?.isSome

/-- Whether the field is an immediate rather than an address. -/
def isImmediate : Mode → Bool
  | byte | word => true
  | _ => false

/-- The least and the greatest constant that the slot can hold. An immediate
may be written signed or unsigned, a displacement is signed, and all else is
unsigned. -/
def range (m : Mode) : Int × Int :=
  match m with
  | relative => (-128, 127)
  | bit _ => (0, 7)
  | byte | word => (-(Int.pow 256 m.width / 2), Int.pow 256 m.width - 1)
  | _ => (0, Int.pow 256 m.width - 1)

/-! ## Text -/

/-- The mode as it stands in the text of a form. -/
def text : Mode → String
  | bit n => "bit" ++ Text.decimal (n.val : Int)
  | relative => "pcrel"
  | reg r => r.name
  | byte => "#byte"
  | word => "#word"
  | shortMem => "shortmem"
  | longMem => "longmem"
  | extMem => "extmem"
  | indX => "(X)"
  | indY => "(Y)"
  | shortOffX => "(shortoff,X)"
  | longOffX => "(longoff,X)"
  | extOffX => "(extoff,X)"
  | shortOffY => "(shortoff,Y)"
  | longOffY => "(longoff,Y)"
  | extOffY => "(extoff,Y)"
  | shortOffSp => "(shortoff,SP)"
  | shortPtr => "[shortptr.w]"
  | longPtr => "[longptr.w]"
  | shortPtrX => "([shortptr.w],X)"
  | longPtrX => "([longptr.w],X)"
  | shortPtrY => "([shortptr.w],Y)"
  | longPtrY => "([longptr.w],Y)"
  | farPtr => "[longptr.e]"
  | farPtrX => "([longptr.e],X)"
  | farPtrY => "([longptr.e],Y)"

theorem mem_all (m : Mode) : m ∈ all := by
  cases m with
  | bit n => revert n; decide
  | reg r => cases r <;> decide
  | _ => decide

theorem width_le (m : Mode) : m.width ≤ 3 := by
  cases m <;> simp [width]

end Mode

end Stm8
