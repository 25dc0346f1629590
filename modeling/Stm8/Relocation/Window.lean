import Stm8.Relocation

/-!
# Windows

Some readers of object files can only store numbers of one, two or four bytes.
For them a three-byte field is a four-byte `Window` that begins one byte before
the field and of which a mask lets only the low three bytes be changed.
`Window.store` is such a store.
-/

namespace Stm8

namespace Relocation

/-- A big-endian number in the code, some bits of which may be changed. -/
structure Window where
  /-- The first byte of the number. -/
  offset : Nat
  /-- The bytes of the number. -/
  size : Nat
  /-- The bits that may be changed. -/
  mask : UInt32
  deriving DecidableEq, Repr, Inhabited

/-- The window through which a reader stores the value of the request. -/
def window (r : Relocation) : Window :=
  match r.kind with
  | .abs24 => { offset := r.offset - 1, size := 4, mask := 0xFFFFFF }
  | .abs16 => { offset := r.offset, size := 2, mask := 0xFFFF }
  | .abs32 => { offset := r.offset, size := 4, mask := 0xFFFFFFFF }
  | .abs8 | .relative8 | .bitNumber => { offset := r.offset, size := 1, mask := 0xFF }

/-- The number that the window shows. -/
def Window.read (w : Window) (code : List UInt8) : UInt32 :=
  UInt32.ofNat (readBigEndian ((code.drop w.offset).take w.size))

/-- The code with the bits under the mask taken from `v`. -/
def Window.store (w : Window) (code : List UInt8) (v : Int) : List UInt8 :=
  let number := (w.read code &&& ~~~w.mask) ||| (UInt32.ofInt v &&& w.mask)
  code.take w.offset ++ bigEndian w.size number.toNat ++ code.drop (w.offset + w.size)

end Relocation

end Stm8
