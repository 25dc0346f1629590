import Stm8.Text.Digits

/-!
# Code buffers

The bytes of one instruction are collected in a `CodeBuffer`, which holds at
most eight. No instruction needs more than five; an operation that would leave
the buffer too full fails with an `Overflow` and leaves it as it was.
-/

namespace Stm8

/-- At most eight bytes. -/
structure CodeBuffer where
  /-- The bytes in order. -/
  toList : List UInt8
  /-- There are no more than eight. -/
  length_le : toList.length ≤ 8
  deriving DecidableEq, Repr

namespace CodeBuffer

/-- The bytes that a buffer can hold. -/
def capacity : Nat := 8

/-- Why an operation on a buffer fails. -/
inductive Overflow where
  /-- There is no room for one more byte. -/
  | full
  /-- There is no room for `added` bytes behind the first `size`. -/
  | tooLong (size added : Nat)
  /-- The buffer has no byte at the index. -/
  | noSuchIndex
  deriving DecidableEq, Repr, Inhabited

/-- The failure in words. -/
def Overflow.message : Overflow → String
  | full => "InstrBytes overflow: cannot push beyond " ++ Text.decimal capacity ++ " bytes"
  | tooLong size added =>
    "InstrBytes overflow: " ++ Text.decimal size ++ " + " ++ Text.decimal added ++
      " exceeds " ++ Text.decimal capacity ++ "-byte capacity"
  | noSuchIndex => "index out of bounds"

/-! ## Operations -/

/-- The buffer without bytes. -/
def empty : CodeBuffer := ⟨[], by decide⟩

instance : Inhabited CodeBuffer := ⟨empty⟩

/-- The number of bytes in the buffer. -/
def size (b : CodeBuffer) : Nat :=
  b.toList.length

/-- Whether there are no bytes in the buffer. -/
def isEmpty (b : CodeBuffer) : Bool :=
  b.toList.isEmpty

/-- The buffer with one more byte. -/
def push (b : CodeBuffer) (byte : UInt8) : Except Overflow CodeBuffer :=
  if h : b.size < capacity then
    .ok ⟨b.toList ++ [byte], by rw [List.length_append]; exact h⟩
  else .error .full

/-- The buffer with more bytes behind its own. -/
def append (b : CodeBuffer) (bytes : List UInt8) : Except Overflow CodeBuffer :=
  if h : b.size + bytes.length ≤ capacity then
    .ok ⟨b.toList ++ bytes, by rw [List.length_append]; exact h⟩
  else .error (.tooLong b.size bytes.length)

/-- A buffer with the given bytes. -/
def ofList (bytes : List UInt8) : Except Overflow CodeBuffer :=
  empty.append bytes

/-- The buffer with the byte at `index` changed by `f`; without such a byte it
stays as it is. -/
def modify (b : CodeBuffer) (index : Nat) (f : UInt8 → UInt8) : CodeBuffer :=
  ⟨b.toList.modify index f, by simpa using b.length_le⟩

/-- The buffer with another byte at `index`, where it must have one. -/
def set (b : CodeBuffer) (index : Nat) (byte : UInt8) : Except Overflow CodeBuffer :=
  if index < b.size then .ok (b.modify index fun _ => byte) else .error .noSuchIndex

/-- The bytes as a list of decimal numbers in brackets. -/
def text (b : CodeBuffer) : String :=
  "[" ++ ", ".intercalate (b.toList.map fun byte => Text.decimal byte.toNat) ++ "]"

/-! ## Laws -/

@[simp] theorem toList_empty : empty.toList = [] := rfl

@[simp] theorem toList_modify (b : CodeBuffer) (index : Nat) (f : UInt8 → UInt8) :
    (b.modify index f).toList = b.toList.modify index f := rfl

/-- Appending succeeds exactly as long as there is room. -/
theorem append_eq_ok_iff {b c : CodeBuffer} {bytes : List UInt8} :
    b.append bytes = .ok c ↔ c.toList = b.toList ++ bytes := by
  unfold append
  split
  next h =>
    constructor
    · intro hc
      injection hc with hc
      subst hc
      rfl
    · intro hc
      obtain ⟨cs, hcs⟩ := c
      subst hc
      rfl
  next h =>
    constructor
    · intro hc
      cases hc
    · intro hc
      exfalso
      have := c.length_le
      rw [hc, List.length_append] at this
      exact h this

end CodeBuffer

end Stm8
