import Stm8.Encoding
import Stm8.Image
import Stm8.Line

/-!
# The assembler

An `Assembler` is a program in the making: the bytes so far, the labels with
their offsets, and what is still to be done. Statements are assembled in order.
One that is rejected leaves no output and is remembered, and the rest of the
source is assembled all the same; `finish` then fails with everything that was
rejected.

Symbols get their values in `finish`, so they may be used before they are
defined. Offsets are relative to the first byte, so the base address may be set
at any time before that.
-/

namespace Stm8

/-! ## Selecting a form for a statement -/

/-- The problem, at `span` if it was found at operands that stand nowhere. -/
def Problem.orAt (span : Span) : Problem → Problem
  | .unknownMnemonic mnemonic s => .unknownMnemonic mnemonic (if s.isNowhere then span else s)
  | .noMatch mnemonic ops s => .noMatch mnemonic ops (if s.isNowhere then span else s)
  | p => p

/-- The form that an instruction takes. A problem is reported at `span`, where the
statement stands, if the operands stand nowhere. -/
def selectForm (mnemonic : String) (ops : List Operand) (span : Span) : Except Problem Form :=
  (catalog.resolve mnemonic ops).mapError (Problem.orAt span)

/-! ## The state -/

/-- A label that was defined. -/
structure Label where
  /-- Its name. -/
  name : String
  /-- The offset of the byte behind it. -/
  offset : Nat
  /-- Where it was defined. -/
  span : Span
  deriving DecidableEq, Repr, Inhabited

/-- A program in the making. -/
structure Assembler where
  /-- The address of the first byte. -/
  base : UInt32 := 0
  /-- The bytes so far. -/
  code : List UInt8 := []
  /-- The labels in the order of their definitions. -/
  labels : List Label := []
  /-- The place of each label name in that order. -/
  labelIndex : Std.TreeMap String Nat := {}
  /-- The symbols defined outside the program. -/
  externals : Std.TreeMap String UInt32 := {}
  /-- Requests for symbols. -/
  relocations : List Relocation := []
  /-- Constants that their fields cannot hold. -/
  diagnostics : List Problem := []
  /-- The problems of the statements that were rejected. -/
  rejections : List Problem := []
  /-- Whether source text is kept for the listing. -/
  listing : Bool := false
  /-- The source text kept so far. -/
  notes : List Note := []
  /-- The source lines so far. -/
  lines : Nat := 0
  /-- The bytes of source text so far. -/
  sourceBytes : Nat := 0

namespace Assembler

instance : Inhabited Assembler := ⟨{}⟩

/-! ## Calls that cannot fail -/

/-- The assembler, keeping source text from now on. -/
def enableListing (a : Assembler) : Assembler :=
  { a with listing := true }

/-- The assembler with the first byte of its program at `address`. -/
def setBase (a : Assembler) (address : UInt32) : Assembler :=
  { a with base := address }

/-- The assembler with a symbol defined outside the program. The last value
that a name is given counts, and a label counts more than any. -/
def defineExternal (a : Assembler) (name : String) (value : UInt32) : Assembler :=
  { a with externals := a.externals.insert name value }

/-- The address of the next byte. -/
def currentAddress (a : Assembler) : UInt32 :=
  a.base + UInt32.ofNat a.code.length

/-- The assembler with more bytes. -/
def data (a : Assembler) (bytes : List UInt8) : Assembler :=
  { a with code := a.code ++ bytes }

/-- The assembler with a 16-bit number as its next bytes. -/
def word (a : Assembler) (value : UInt16) : Assembler :=
  a.data (bigEndian 2 value.toNat)

/-! ## Calls that may fail

Such a call returns the assembler, as it is when the call ends, and the problem if
there is one. -/

/-- The rest of a call that needs the result of `x`. If `x` has failed, the call ends
here, with the assembler as it is. -/
def withResult {α : Type} (a : Assembler) (x : Except Problem α)
    (rest : α → Assembler × Option Problem) : Assembler × Option Problem :=
  match x with
  | .error problem => (a, some problem)
  | .ok v => rest v

/-- The rest of a call after another one. If that one has failed, the call ends here,
with the assembler that it left. -/
def proceed (result : Assembler × Option Problem)
    (rest : Assembler → Assembler × Option Problem) : Assembler × Option Problem :=
  match result.2 with
  | some problem => (result.1, some problem)
  | none => rest result.1

section

variable {α : Type} (a : Assembler) (problem : Problem)

@[simp] theorem withResult_ok (v : α) (rest : α → Assembler × Option Problem) :
    a.withResult (.ok v) rest = rest v := rfl

@[simp] theorem withResult_error (rest : α → Assembler × Option Problem) :
    a.withResult (.error problem) rest = (a, some problem) := rfl

@[simp] theorem proceed_none (rest : Assembler → Assembler × Option Problem) :
    proceed (a, none) rest = rest a := rfl

@[simp] theorem proceed_some (rest : Assembler → Assembler × Option Problem) :
    proceed (a, some problem) rest = (a, some problem) := rfl

end

/-! ## Labels and instructions -/

/-- The assembler with a label in front of the next byte, or the problem if the
name is taken. -/
def defineLabel (a : Assembler) (name : String) (span : Span := .nowhere) :
    Assembler × Option Problem :=
  match a.labelIndex[name]? with
  | some i => (a, some (.duplicateLabel name span (a.labels[i]?.getD default).span))
  | none =>
    ({ a with
        labelIndex := a.labelIndex.insert name a.labels.length
        labels := a.labels ++ [⟨name, a.code.length, span⟩] }, none)

/-- The assembler with an encoded instruction. -/
def place (a : Assembler) (e : Encoding) : Assembler :=
  { a with
    code := a.code ++ e.code.toList
    relocations := a.relocations ++ e.relocations.map (·.shift a.code.length)
    diagnostics := a.diagnostics ++ e.diagnostics }

/-- The assembler with source text kept for the bytes from `offset` on, if it
keeps any. -/
def note (a : Assembler) (offset : Nat) (text : String) : Assembler :=
  if a.listing then { a with notes := a.notes ++ [⟨offset, text⟩] } else a

/-- The assembler with the instruction of the given form and operands, or the
problem of its operands. -/
def encodeForm (a : Assembler) (f : Form) (ops : List Operand) : Assembler × Option Problem :=
  a.withResult (f.encode ops) fun e => (a.place e, none)

/-- The assembler with an instruction that was built and not read, or the
problem if there is no such instruction. -/
def instruction (a : Assembler) (mnemonic : String) (ops : List Operand) :
    Assembler × Option Problem :=
  a.withResult (selectForm mnemonic ops .nowhere) fun f =>
    proceed (a.encodeForm f ops) fun next =>
      let operands := Operand.texts ops
      let text := if operands.isEmpty then f.mnemonic else f.mnemonic ++ " " ++ operands
      (next.note a.code.length text, none)

end Assembler

/-! ## Commands -/

/-- The cells that a data directive fills. -/
inductive Cell where
  /-- Single bytes. -/
  | byte
  /-- Pairs of bytes. -/
  | word
  deriving DecidableEq, Repr, Inhabited

namespace Cell

/-- The cells of the directive with this name, in either case. -/
def named? (name : String) : Option Cell :=
  let name := Text.lower name
  if name == ".byte" || name == ".db" then some .byte
  else if name == ".word" || name == ".dw" then some .word
  else none

/-- How the value of a symbol is put into a cell. -/
def relocation : Cell → Relocation.Kind
  | .byte => .abs8
  | .word => .abs16

/-- The bytes of a cell. -/
def size (c : Cell) : Nat :=
  c.relocation.size

/-- The least and the greatest constant that a cell can hold, signed or
unsigned. -/
def range : Cell → Int × Int
  | .byte => (-0x80, 0xFF)
  | .word => (-0x8000, 0xFFFF)

/-- The values of the operands of a data directive. -/
def readValues : List Part → Except Problem (List (Value × Span))
  | [] => .ok []
  | p :: ps => do
    match Value.parse? p.text.toList with
    | none => .error (.malformed (.invalidValue p.text) p.span)
    | some v =>
      let vs ← readValues ps
      return (v, p.span) :: vs

end Cell

namespace Assembler

/-- The assembler with one more cell. -/
def fill (a : Assembler) (c : Cell) (v : Value) (span : Span) : Assembler :=
  match v with
  | .const v =>
    let (least, greatest) := c.range
    let next := a.data (bigEndian c.size v)
    if v < least || greatest < v then
      { next with diagnostics := a.diagnostics ++ [.outOfRange v least greatest span] }
    else next
  | .symbol s =>
    let next := a.data (List.replicate c.size filler)
    { next with
      relocations :=
        a.relocations ++ [⟨a.code.length, c.relocation, s.name, s.addend, span⟩] }

/-- The assembler with the cells of a data directive, or the problem of the
directive. All values are read first, so that a wrong one leaves no output. -/
def directive (a : Assembler) (c : Command) : Assembler × Option Problem :=
  match Cell.named? c.name.text with
  | none => (a, some (.malformed (.unknownDirective c.name.text) c.name.span))
  | some cell =>
    if c.operands.isEmpty then
      (a, some (.malformed (.needsValue c.name.text) c.name.span))
    else
      a.withResult (Cell.readValues c.operands) fun values =>
        (values.foldl (fun a (v, span) => a.fill cell v span) a, none)

/-- The assembler with an instruction that was read, or its problem. -/
def readInstruction (a : Assembler) (c : Command) : Assembler × Option Problem :=
  a.withResult (readOperands c.operands) fun ops =>
    a.withResult (selectForm c.name.text ops c.name.span) fun f => a.encodeForm f ops

/-- The assembler with a command, or its problem. -/
def command (a : Assembler) (c : Command) : Assembler × Option Problem :=
  let result :=
    if c.name.text.toList.head? == some '.' then a.directive c else a.readInstruction c
  proceed result fun next => (next.note a.code.length c.text, none)

/-! ## Statements and source texts -/

/-- The assembler with the labels of a line, up to the first one whose name is
taken, and the problem of that one. -/
def defineLabels (a : Assembler) : List Part → Assembler × Option Problem
  | [] => (a, none)
  | p :: ps =>
    proceed (a.defineLabel p.text p.span) fun next => next.defineLabels ps

/-- The assembler after a statement, and the problem if the statement is
rejected. The labels of a rejected statement stay. -/
def statement (a : Assembler) (text : List Char) (number offset : Nat) :
    Assembler × Option Problem :=
  a.withResult (Line.parse text number offset) fun line =>
    proceed (a.defineLabels line.labels) fun next =>
      match line.command with
      | none => (next, none)
      | some c => next.command c

/-- The lines of a source, each with the line break that ends it. -/
def splitLines : List Char → List (List Char)
  | [] => []
  | c :: cs =>
    if c == '\n' then [c] :: splitLines cs
    else
      match splitLines cs with
      | [] => [[c]]
      | line :: lines => (c :: line) :: lines

/-- The line without the line break at its end. -/
def withoutBreak (line : List Char) : List Char :=
  (line.reverse.dropWhile fun c => c == '\n' || c == '\r').reverse

/-- The assembler after a source line, and the problem if it is rejected. -/
def emitLine (a : Assembler) (line : List Char) : Assembler × Option Problem :=
  let (next, problem) := a.statement (withoutBreak line) (a.lines + 1) a.sourceBytes
  ({ next with
      lines := a.lines + 1
      sourceBytes := a.sourceBytes + Text.width line
      rejections := next.rejections ++ problem.toList }, problem)

/-- The assembler after some source lines, and the problems of the rejected
ones. -/
def emitLines (a : Assembler) : List (List Char) → Assembler × List Problem
  | [] => (a, [])
  | line :: lines =>
    let (next, problem) := a.emitLine line
    let (last, problems) := next.emitLines lines
    (last, problem.toList ++ problems)

/-- The assembler after a source text, and the problems of the rejected
statements. Line numbers go on from one text to the next. -/
def emit (a : Assembler) (source : String) : Assembler × List Problem :=
  a.emitLines (splitLines source.toList)

/-! ## Finishing -/

/-- The value of a symbol: the address of a label, not reduced to 32 bits, or
else the value from outside the program. -/
def symbolValue? (a : Assembler) (name : String) : Option Int :=
  match a.labelIndex[name]? with
  | some i => some (a.base.toNat + (a.labels[i]?.getD default).offset)
  | none => a.externals[name]?.map fun v => (v.toNat : Int)

/-- What is being finished: the code, the problems and the requests that are left
over. -/
structure Linking where
  /-- The code with the values that were put into it so far. -/
  code : List UInt8
  /-- Values that do not fit. -/
  diagnostics : List Problem := []
  /-- Requests for symbols that have no value. -/
  leftover : List Relocation := []
  deriving DecidableEq, Repr, Inhabited

/-- Carries out one request. -/
def Linking.resolve (a : Assembler) (l : Linking) (r : Relocation) : Linking :=
  match a.symbolValue? r.symbol with
  | none => { l with leftover := l.leftover ++ [r] }
  | some target =>
    let (code, problem) := r.apply l.code a.base target
    { l with code, diagnostics := l.diagnostics ++ problem.toList }

/-- Carries out all requests in order. -/
def link (a : Assembler) : Linking :=
  a.relocations.foldl (Linking.resolve a) { code := a.code, diagnostics := a.diagnostics }

/-- Whether a request of the program overflows. Requests are not reached if
statements were rejected. -/
def overflows (a : Assembler) : Bool :=
  a.rejections.isEmpty && a.relocations.any fun r =>
    (a.symbolValue? r.symbol).any (r.overflows a.base)

/-- The finished program, or the statements that were rejected. -/
def finish (a : Assembler) : Except Report Image :=
  match Report.ofProblems? a.rejections with
  | some report => .error report
  | none =>
    let l := a.link
    .ok {
      bytes := l.code
      labels := a.labels.map fun label =>
        (label.name, a.base + UInt32.ofNat label.offset)
      relocations := l.leftover
      diagnostics := l.diagnostics
      base := a.base
      notes := a.notes }

end Assembler

end Stm8
