import Stm8.Image

/-!
# Listings

A listing shows an image as rows of at most eight bytes with their addresses.
Labels have rows of their own, in front of the row that begins at their address,
and a row that begins where a command begins shows the source text of the
command. A row never reaches over the address of a label or the beginning of a
command.

`Image.rows` are the rows and `Row.text` is their wording.
-/

namespace Stm8

/-! ## Rows -/

/-- A row of a listing. -/
inductive Row where
  /-- A label. -/
  | label (address : UInt32) (name : String)
  /-- Some bytes, and source text if a command begins with them. -/
  | bytes (address : UInt32) (run : List UInt8) (source : Option String)
  deriving DecidableEq, Repr, Inhabited

/-- The row as text: the address, the bytes in sixteen columns, and the source
text. -/
def Row.text : Row → String
  | label address name =>
    Text.hexUpper 6 address.toNat ++ String.ofList (List.replicate 18 ' ') ++ name ++ ":"
  | bytes address run source =>
    let digits := String.join (run.map fun b => Text.hexUpper 2 b.toNat)
    let columns := digits ++ String.ofList (List.replicate (16 - 2 * run.length) ' ')
    Text.hexUpper 6 address.toNat ++ "  " ++ columns ++
      match source with
      | some text => "  " ++ text
      | none => ""

namespace Image

/-! ## Where rows begin -/

/-- The address of the byte at an offset. -/
def addressAt (i : Image) (offset : Nat) : UInt32 :=
  i.base + UInt32.ofNat offset

/-- The names of the labels at an address, in the order of their definitions. -/
def labelsAt (i : Image) (address : UInt32) : List String :=
  (i.labels.filter (·.2 == address)).map (·.1)

/-- The source text of the command that begins at an address; the last one if
there are several. -/
def sourceAt? (i : Image) (address : UInt32) : Option String :=
  (i.notes.reverse.find? fun n => !n.text.isEmpty && i.addressAt n.offset == address).map (·.text)

/-- Whether a new row has to begin at an address. -/
def beginsRow (i : Image) (address : UInt32) : Bool :=
  !(i.labelsAt address).isEmpty || (i.sourceAt? address).isSome

/-- The greatest number of bytes in a row. -/
def rowLength : Nat := 8

/-! ## The listing -/

/-- The number of bytes in the row that begins at `offset`, where `left` bytes
are left: up to the next place where a row has to begin. -/
def runLength (i : Image) (offset left : Nat) : Nat :=
  1 + ((List.range' 1 (min rowLength left - 1)).takeWhile fun k =>
    !i.beginsRow (i.addressAt (offset + k))).length

/-- The rows of the labels at an offset. -/
def labelRows (i : Image) (offset : Nat) : List Row :=
  (i.labelsAt (i.addressAt offset)).map (Row.label (i.addressAt offset))

/-- The rows of `bytes`, which are the rest of the image from `offset` on. -/
def rowsFrom (i : Image) (offset : Nat) : List UInt8 → List Row
  | [] => i.labelRows offset
  | b :: rest =>
    let n := i.runLength offset (rest.length + 1)
    let address := i.addressAt offset
    i.labelRows offset ++
      Row.bytes address ((b :: rest).take n) (i.sourceAt? address) ::
        i.rowsFrom (offset + n) (rest.drop (n - 1))
termination_by bytes => bytes.length
decreasing_by
  simp only [List.length_drop, List.length_cons]
  omega

/-- The rows of the listing. -/
def rows (i : Image) : List Row :=
  i.rowsFrom 0 i.bytes

/-- The listing, each row ended by a line break. -/
def listing (i : Image) : String :=
  String.join (i.rows.map fun r => r.text ++ "\n")

end Image

end Stm8
