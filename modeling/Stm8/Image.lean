import Stm8.Relocation
import Stm8.Sweep

/-!
# Finished programs

An `Image` is what a program is assembled to: the bytes, the labels with their
addresses, the relocations that are left for a linker, and the constants and
branches that do not fit. The source text of a command is kept as a note at the
offset of its first byte, for the listing.
-/

namespace Stm8

/-- Source text of the bytes from an offset on. -/
structure Note where
  /-- The offset of the first byte. -/
  offset : Nat
  /-- The text of the command. -/
  text : String
  deriving DecidableEq, Repr, Inhabited

/-- A finished program. -/
structure Image where
  /-- The machine code. -/
  bytes : List UInt8
  /-- The labels with their addresses, in the order of their definitions. -/
  labels : List (String × UInt32)
  /-- Requests for symbols that the program does not know. -/
  relocations : List Relocation
  /-- Values that do not fit their fields. -/
  diagnostics : List Problem
  /-- The address of the first byte. -/
  base : UInt32
  /-- Source text for the listing. -/
  notes : List Note
  deriving DecidableEq, Repr, Inhabited

namespace Image

/-- The address of a label. -/
def labelAddress? (i : Image) (name : String) : Option UInt32 :=
  (i.labels.find? (·.1 == name)).map (·.2)

/-- Whether some value does not fit. -/
def hasErrors (i : Image) : Bool :=
  !i.diagnostics.isEmpty

/-- Whether the bytes are final: every value fits and nothing is left to a
linker. -/
def isComplete (i : Image) : Bool :=
  i.diagnostics.isEmpty && i.relocations.isEmpty

/-- The labels as names of addresses; of several labels at one address the one
that was defined first counts. -/
def names (i : Image) : Names :=
  Names.ofList (i.labels.map fun (name, address) => (address, name))

/-- The instructions of the image as lines of a disassembly. -/
def disassembly (i : Image) : List String :=
  (sweep i.base i.bytes).map (·.display i.names)

end Image

end Stm8
