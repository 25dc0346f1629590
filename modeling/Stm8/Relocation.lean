import Stm8.BigEndian
import Stm8.Problem
import Stm8.Quantity

/-!
# Relocations

A relocation is a request to put the value of a symbol into code that is
already there. Fields hold big-endian numbers; a displacement is measured from
the end of its own byte, which is the end of the instruction in every form that
has one; a bit number is added to an opcode byte, times two.

`Relocation.apply` carries out a request: it returns the code and, if there is
one, the problem. Nothing is written unless the field lies inside the code and
the value is in its range.

The value is computed in 64 bits and nobody tests its sums, which `sum` adds up
exactly. Where one of them is no quantity (`overflows`), a program that checks
its arithmetic stops; otherwise the sum wraps around, and `value` is what comes
out. The two agree wherever nothing overflows.
-/

namespace Stm8

namespace Relocation

/-! ## Kinds -/

/-- How a value is put into the code. -/
inductive Kind where
  /-- One byte. -/
  | abs8
  /-- Two bytes. -/
  | abs16
  /-- Three bytes. -/
  | abs24
  /-- Four bytes. No instruction has such a field. -/
  | abs32
  /-- One signed byte, relative to its own end. -/
  | relative8
  /-- A bit number, added to the opcode. -/
  | bitNumber
  deriving DecidableEq, Repr, Inhabited

/-- The bytes that are written. -/
def Kind.size : Kind → Nat
  | abs8 | relative8 | bitNumber => 1
  | abs16 => 2
  | abs24 => 3
  | abs32 => 4

/-- Whether the value is relative to its own place. -/
def Kind.isRelative : Kind → Bool
  | relative8 => true
  | _ => false

/-- The number of the kind in object files. Bit numbers have none: an assembler
resolves them itself. -/
def Kind.elfType? : Kind → Option Nat
  | abs8 => some 1
  | abs16 => some 2
  | abs24 => some 3
  | abs32 => some 4
  | relative8 => some 5
  | bitNumber => none

/-- The numbers that object files know, from "no relocation" on. -/
def elfTypes : List Nat := [0, 1, 2, 3, 4, 5]

/-- The least and the greatest value that can be written. -/
def Kind.range : Kind → Int × Int
  | abs8 => (0, 0xFF)
  | abs16 => (0, 0xFFFF)
  | abs24 => (0, 0xFFFFFF)
  | abs32 => (0, 0xFFFFFFFF)
  | relative8 => (-128, 127)
  | bitNumber => (0, 7)

end Relocation

/-- The kind of relocation that fills a slot of mode `m`; none for a slot that
has no field. -/
def Mode.relocation? (m : Mode) : Option Relocation.Kind :=
  match m with
  | .bit _ => some .bitNumber
  | .relative => some .relative8
  | m =>
    match m.width with
    | 1 => some .abs8
    | 2 => some .abs16
    | 3 => some .abs24
    | _ => none

/-! ## Requests -/

/-- A request to put the value of a symbol into code. -/
structure Relocation where
  /-- The first byte of the field, counted from the start of the code. -/
  offset : Nat
  /-- How the value is put there. -/
  kind : Relocation.Kind
  /-- The symbol. -/
  symbol : String
  /-- A constant added to the value of the symbol. -/
  addend : Int := 0
  /-- Where the operand stands. -/
  span : Span := .nowhere
  deriving DecidableEq, Repr, Inhabited

namespace Relocation

/-- The addend when a distance is counted from the start of the field: the byte
up to its end goes into the addend. -/
def addendFromStart (r : Relocation) : Int :=
  if r.kind.isRelative then r.addend - 1 else r.addend

/-- The addend of the request in an object file, where distances are counted from
the start of the field. The smallest addend of all wraps around. -/
def elfAddend (r : Relocation) : Int :=
  if r.kind.isRelative then Quantity.wrap (r.addend - 1) else r.addend

/-- The request for the same field in code that has `n` more bytes in front. -/
def shift (r : Relocation) (n : Nat) : Relocation :=
  { r with offset := n + r.offset }

/-! ## Carrying out a request -/

/-- The sum that a request asks for when the symbol has the value `target` and
the code starts at `address`: value and addend, less the place where a
displacement is counted from. -/
def sum (r : Relocation) (address : UInt32) (target : Int) : Int :=
  if r.kind.isRelative then target + r.addend - (address.toNat + r.offset + 1)
  else target + r.addend

/-- Whether adding up leaves the quantities, at the first addition or at the end. -/
def overflows (r : Relocation) (address : UInt32) (target : Int) : Bool :=
  !Quantity.fits (target + r.addend) || !Quantity.fits (r.sum address target)

/-- The number to be written: the sum, computed in 64 bits. -/
def value (r : Relocation) (address : UInt32) (target : Int) : Int :=
  let v := Quantity.wrap (target + r.addend)
  if r.kind.isRelative then Quantity.wrap (v - (address.toNat + r.offset + 1)) else v

/-- Adding up in 64 bits is adding up exactly and wrapping around once. -/
theorem value_eq_wrap (r : Relocation) (address : UInt32) (target : Int) :
    r.value address target = Quantity.wrap (r.sum address target) := by
  unfold value sum
  split
  · exact Quantity.wrap_wrap_sub _ _
  · rfl

theorem overflows_eq_false_iff {r : Relocation} {address : UInt32} {target : Int} :
    r.overflows address target = false ↔
      Quantity.fits (target + r.addend) = true ∧ Quantity.fits (r.sum address target) = true := by
  unfold overflows
  rw [Bool.or_eq_false_iff, Bool.not_eq_false', Bool.not_eq_false']

/-- Where nothing overflows, the number is the sum. -/
theorem value_of_not_overflows {r : Relocation} {address : UInt32} {target : Int}
    (h : r.overflows address target = false) : r.value address target = r.sum address target := by
  rw [value_eq_wrap, Quantity.wrap_of_fits (overflows_eq_false_iff.mp h).2]

/-- The code with `v` in the field of the request. -/
def write (r : Relocation) (code : List UInt8) (v : Int) : List UInt8 :=
  match r.kind with
  | .bitNumber => code.modify r.offset (· + 2 * UInt8.ofInt v)
  | kind =>
    code.take r.offset ++ bigEndian kind.size v ++ code.drop (r.offset + kind.size)

/-- The problem of a value that cannot be written. -/
def rangeProblem (r : Relocation) (v : Int) : Problem :=
  if r.kind.isRelative then .branchOutOfRange r.symbol v r.kind.range.2 r.span
  else .outOfRange v r.kind.range.1 r.kind.range.2 r.span

/-- Carries out the request on code that starts at `address`, where the symbol
has the value `target`: the code afterwards, and the problem if there is one. -/
def apply (r : Relocation) (code : List UInt8) (address : UInt32) (target : Int) :
    List UInt8 × Option Problem :=
  let stop := r.offset + r.kind.size
  if code.length < stop then
    (code, some (.noEncoding ("reloc " ++ r.symbol) (.fieldOutside r.offset stop code.length)))
  else
    let v := r.value address target
    if v < r.kind.range.1 || r.kind.range.2 < v then (code, some (r.rangeProblem v))
    else (r.write code v, none)

end Relocation

end Stm8
