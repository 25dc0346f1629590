/-!
# Big-endian fields

Operand fields hold numbers with the most significant byte first. `bigEndian`
writes the low bytes of an integer, two's complement if it is negative, and
`readBigEndian` and `readSigned` are the numbers that a field holds.
-/

namespace Stm8

/-- The low `width` bytes of `v`, most significant first. -/
def bigEndian : Nat → Int → List UInt8
  | 0, _ => []
  | width + 1, v => bigEndian width (v / 256) ++ [UInt8.ofInt v]

/-- The number that the bytes hold, most significant first. -/
def readBigEndian (bytes : List UInt8) : Nat :=
  bytes.foldl (fun acc b => acc * 256 + b.toNat) 0

/-- The signed number that one byte holds. -/
def readSigned (b : UInt8) : Int :=
  if b < 0x80 then b.toNat else (b.toNat : Int) - 256

@[simp] theorem length_bigEndian (width : Nat) (v : Int) :
    (bigEndian width v).length = width := by
  induction width generalizing v with
  | zero => rfl
  | succ width ih => simp [bigEndian, ih]

theorem readBigEndian_concat (bytes : List UInt8) (b : UInt8) :
    readBigEndian (bytes ++ [b]) = readBigEndian bytes * 256 + b.toNat := by
  simp [readBigEndian]

/-- The byte of an integer is its remainder modulo 256. -/
theorem toNat_ofInt (v : Int) : ((UInt8.ofInt v).toNat : Int) = v % 256 := by
  have h0 : 0 ≤ v % 256 := Int.emod_nonneg v (by decide)
  have h1 : v % 256 < 256 := Int.emod_lt_of_pos v (by decide)
  have h2 : (UInt8.ofInt v).toNat = (v % 256).toNat % 256 := by
    simp [UInt8.ofInt]
  rw [h2]
  omega

end Stm8
