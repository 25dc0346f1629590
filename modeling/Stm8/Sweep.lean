import Stm8.Instruction.Printer

/-!
# The linear sweep

A byte string is disassembled one instruction after another, and every byte
belongs to one of them: what is no instruction is data, and an instruction that
the end cuts off is one last item with the bytes that are left.
-/

namespace Stm8

/-- The first instruction of `bytes`, which stand at `address`. -/
def firstInstruction (address : UInt32) (bytes : List UInt8) : Instruction :=
  match decode (Region.source ⟨address, bytes⟩) address with
  | .ok i => i
  | .error _ => .ofTail address bytes

/-- The instruction behind the first `offset` bytes of a region, or else all bytes that are
left. -/
def Region.instructionAt (r : Region) (offset : Nat) : Instruction :=
  let address := r.base + UInt32.ofNat offset
  match decode r.source address with
  | .ok i => i
  | .error _ => .ofTail address (r.bytes.drop offset)

/-- The instructions of `bytes`, which stand at `address`. Bytes that have been swept are
forgotten, which makes no difference as long as addresses do not come round: each
instruction is the one at its offset in the region of all bytes (`sweep_drop`). -/
def sweep (address : UInt32) : List UInt8 → List Instruction
  | [] => []
  | b :: rest =>
    let i := firstInstruction address (b :: rest)
    -- the first byte always belongs to the first instruction
    i :: sweep (address + UInt32.ofNat i.size) (rest.drop (i.size - 1))
termination_by bytes => bytes.length
decreasing_by
  simp only [List.length_drop, List.length_cons]
  omega

end Stm8
