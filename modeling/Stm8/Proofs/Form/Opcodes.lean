import Stm8.Instruction
import Stm8.Proofs.Form.Index

/-!
# What the table says about opcodes

Facts about all forms at once, each checked by running through the table:

> `pageByte_opcode`: a two-byte opcode begins with a page byte and no one-byte
> opcode is one, so that the first byte tells how long the opcode is.
> `first_modes`: forms that share an opcode have the same slots.
> `first_withBit`: the form for another bit number is in the table, and its
> opcode is two further for each bit, without a carry out of the last byte.

The rest of the module draws the conclusions that encoding and decoding need.
-/

namespace Stm8

/-! ## Bit numbers -/

/-- The slot for bit number `k`, if it is a slot for a bit number. -/
def Mode.withBit (k : Fin 8) : Mode → Mode
  | bit _ => bit k
  | m => m

namespace Form

/-- The bit number of the form. -/
def bit? (f : Form) : Option (Fin 8) :=
  f.modes.findSome? Mode.bit?

/-- The form for bit number `k`, whose opcode is two further for each bit. -/
def withBit (f : Form) (k : Fin 8) : Form :=
  match f.bit? with
  | none => f
  | some n =>
    { f with
      modes := f.modes.map (Mode.withBit k)
      opcode := UInt16.ofNat (f.opcode.toNat + 2 * k.val - 2 * n.val) }

/-! ## The opcode as bytes -/

/-- The opcode is one byte, or a page byte and one more. -/
theorem opcodeBytes_eq (f : Form) :
    (f.opcode.toNat < 256 ∧ f.opcodeBytes = [f.opcode.toUInt8]) ∨
      (256 ≤ f.opcode.toNat ∧
        f.opcodeBytes = [(f.opcode >>> 8).toUInt8, f.opcode.toUInt8]) := by
  unfold opcodeBytes
  by_cases h : f.opcode < 0x100
  · exact Or.inl ⟨h, if_pos h⟩
  · exact Or.inr ⟨Nat.not_lt.mp h, if_neg h⟩

/-- The width of the opcode is the number of its bytes. -/
@[simp] theorem length_opcodeBytes (f : Form) : f.opcodeBytes.length = f.opcodeWidth := by
  have hlt := f.opcode.toNat_lt
  have hword : f.opcode.toUInt32.toNat = f.opcode.toNat := UInt16.toNat_toUInt32 f.opcode
  rcases f.opcodeBytes_eq with ⟨h, hb⟩ | ⟨h, hb⟩
  · rw [hb, opcodeWidth, byteWidth, if_pos (by rw [UInt32.lt_iff_toNat_lt, hword]; exact h)]
    rfl
  · rw [hb, opcodeWidth, byteWidth,
      if_neg (by rw [UInt32.lt_iff_toNat_lt, hword]; exact Nat.not_lt.mpr h),
      if_pos (by rw [UInt32.lt_iff_toNat_lt, hword]; exact hlt)]
    rfl

/-- The opcode has at least one byte. -/
theorem opcodeWidth_pos (f : Form) : 0 < f.opcodeWidth := by
  rw [← length_opcodeBytes]
  rcases f.opcodeBytes_eq with ⟨-, h⟩ | ⟨-, h⟩ <;> simp [h]

/-- The bytes of the opcode lead back to it. -/
@[simp] theorem opcodeKey_opcodeBytes (f : Form) : opcodeKey f.opcodeBytes = f.opcode := by
  have hlt := f.opcode.toNat_lt
  apply UInt16.toNat_inj.mp
  rcases f.opcodeBytes_eq with ⟨h, hb⟩ | ⟨h, hb⟩
  · simp [hb, opcodeKey, readBigEndian]
    omega
  · simp [hb, opcodeKey, readBigEndian, Nat.shiftRight_eq_div_pow]
    omega

/-! ## Facts checked on the table -/

/-- A two-byte opcode begins with a page byte, and no one-byte opcode is one. -/
theorem pageByte_opcode :
    ∀ f ∈ all, f.opcodeBytes.head?.map isPageByte = some (f.opcodeBytes.length == 2) := by
  decide +kernel

/-- Forms that share an opcode have the same slots. -/
theorem first_modes :
    ∀ f ∈ all, (catalog.withOpcode? f.opcode).map Form.modes = some f.modes := by
  decide +kernel

/-- A form for a bit number has one for every other bit number beside it. The
opcodes differ in the last byte only. -/
theorem first_withBit :
    ∀ f ∈ all, f.bit?.isSome → ∀ k : Fin 8,
      (catalog.withOpcode? (f.withBit k).opcode).map Form.modes = some (f.withBit k).modes ∧
        (f.withBit k).opcode.toNat / 256 = f.opcode.toNat / 256 ∧
        (f.withBit k).opcode.toNat + 2 * (f.bit?.getD 0).val = f.opcode.toNat + 2 * k.val := by
  decide +kernel

/-- No form has two bit numbers. -/
theorem bit_slots : ∀ f ∈ all, (f.modes.filterMap Mode.bit?).length ≤ 1 := by
  decide +kernel

/-- The operands of a form for a bit number are stored in the order as written. -/
theorem not_reversed_of_bit : ∀ f ∈ all, f.bit?.isSome → f.reversed = false := by
  decide +kernel

/-- A displacement is the last slot, and its field the last one. -/
theorem relative_last :
    ∀ f ∈ all, Mode.relative ∈ f.modes →
      f.reversed = false ∧ f.modes.getLast? = some .relative ∧
        Mode.relative ∉ f.modes.dropLast := by
  decide +kernel

/-- No instruction is longer than five bytes. -/
theorem length_le : ∀ f ∈ all, f.length ≤ 5 := by
  decide +kernel

end Form

end Stm8
