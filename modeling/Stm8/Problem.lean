import Stm8.CodeBuffer
import Stm8.Mode
import Stm8.Operand

/-!
# Problems

What can be wrong with a program, each with its cause and its place. A
`Problem` is one finding. A `Report` is what a caller is handed: one problem, or
several of them collected; only a caller that collects reports once more makes
one that is nested deeper.

`Problem.message` and `Report.message` are the wording.
-/

namespace Stm8

/-! ## Causes -/

/-- Why a statement or an operand cannot be read. -/
inductive Malformation where
  /-- The text is no value. -/
  | invalidValue (text : String)
  /-- There is no text where an operand is expected. -/
  | missingOperand
  /-- A bracket of the operand is not closed. -/
  | unbalancedIn (text : String)
  /-- The parentheses hold neither a register nor a pair. -/
  | expectedIndexRegister (text : String)
  /-- The brackets of the statement do not pair up. -/
  | unbalanced
  /-- There is nothing between two commas. -/
  | emptyOperand
  /-- No instruction takes that many operands. -/
  | tooManyOperands (count : Nat)
  /-- The name begins with a dot and is no directive. -/
  | unknownDirective (name : String)
  /-- The directive has no values. -/
  | needsValue (name : String)
  /-- A cause that somebody else found, in their words. -/
  | stated (text : String)
  deriving DecidableEq, Repr, Inhabited

/-- How operands and a form, or a relocation and its code, can disagree. -/
inductive Mismatch where
  /-- The form takes another number of operands. -/
  | operandCount (expected got : Nat)
  /-- The slot takes a value and the operand has none. -/
  | noValue (position : Nat)
  /-- The slot does not take the operand. -/
  | doesNotFit (position : Nat) (operand : Operand) (mode : Mode)
  /-- The field of the slot cannot hold the address of a symbol. -/
  | notRelocatable (mode : Mode)
  /-- The form is longer than any instruction. -/
  | overflow (cause : CodeBuffer.Overflow)
  /-- The field lies outside the code. -/
  | fieldOutside (start stop size : Nat)
  /-- A cause that somebody else found, in their words. -/
  | stated (text : String)
  deriving DecidableEq, Repr, Inhabited

/-! ## Problems and reports -/

/-- One thing that is wrong. -/
inductive Problem where
  /-- No form has this mnemonic. -/
  | unknownMnemonic (mnemonic : String) (span : Span)
  /-- No form of the mnemonic accepts the operands. -/
  | noMatch (mnemonic operands : String) (span : Span)
  /-- A value does not fit its field. -/
  | outOfRange (value least greatest : Int) (span : Span)
  /-- The symbol is neither a label nor defined outside the program. -/
  | undefinedSymbol (symbol : String) (span : Span)
  /-- The label was defined before. -/
  | duplicateLabel (label : String) (span first : Span)
  /-- The target of a relative branch is too far away. -/
  | branchOutOfRange (symbol : String) (displacement greatest : Int) (span : Span)
  /-- The text of a statement cannot be read. -/
  | malformed (cause : Malformation) (span : Span)
  /-- The bytes of an instruction cannot be read from memory. -/
  | unreadable (address : UInt32) (length : Nat)
  /-- What was to be encoded does not fit its form. Operands that were resolved
  never lead here. -/
  | noEncoding (subject : String) (cause : Mismatch)
  deriving DecidableEq, Repr, Inhabited

/-- One problem, or several reports collected. -/
inductive Report where
  /-- A single problem. -/
  | one (problem : Problem)
  /-- Several reports. -/
  | several (reports : List Report)
  deriving Repr, Inhabited

/-! ## Wording -/

/-- The cause in words. -/
def Malformation.message : Malformation → String
  | invalidValue text => "invalid value '" ++ text ++ "'"
  | missingOperand => "missing operand"
  | unbalancedIn text => "unbalanced brackets in '" ++ text ++ "'"
  | expectedIndexRegister text => "expected index register in '" ++ text ++ "'"
  | unbalanced => "unbalanced brackets"
  | emptyOperand => "empty operand"
  | tooManyOperands count => "too many operands (" ++ Text.decimal count ++ ")"
  | unknownDirective name => "unknown directive '" ++ name ++ "'"
  | needsValue name => "'" ++ name ++ "' needs at least one value"
  | stated text => text

/-- The cause in words. -/
def Mismatch.message : Mismatch → String
  | operandCount expected got =>
    "expected " ++ Text.decimal expected ++ " operand(s), got " ++ Text.decimal got
  | noValue position => "operand " ++ Text.decimal position ++ " has no value"
  | doesNotFit position operand mode =>
    "operand " ++ Text.decimal position ++ " '" ++ operand.text ++ "' does not fit " ++ mode.text
  | notRelocatable mode => mode.text ++ " cannot be relocated"
  | overflow cause => cause.message
  | fieldOutside start stop size =>
    "field " ++ Text.decimal start ++ ".." ++ Text.decimal stop ++ " outside " ++
      Text.decimal size ++ " code bytes"
  | stated text => text

namespace Problem

/-- Where the problem is, if it has a place in the source. -/
def span? : Problem → Option Span
  | unknownMnemonic _ span | noMatch _ _ span | outOfRange _ _ _ span | undefinedSymbol _ span
  | duplicateLabel _ span _ | branchOutOfRange _ _ _ span | malformed _ span => some span
  | unreadable _ _ | noEncoding _ _ => none

/-- Whether the problem is a fault of the assembler and not of its input. -/
def isInternal : Problem → Bool
  | noEncoding _ _ => true
  | _ => false

/-- What is wrong, without the place. -/
def statement : Problem → String
  | unknownMnemonic mnemonic _ => "unknown mnemonic '" ++ mnemonic ++ "'"
  | noMatch mnemonic operands _ =>
    if operands.isEmpty then "no form of '" ++ mnemonic ++ "' takes no operands"
    else "no form of '" ++ mnemonic ++ "' accepts operands '" ++ operands ++ "'"
  | outOfRange value least greatest _ =>
    "value " ++ Text.decimal value ++ " out of range [" ++ Text.decimal least ++ ".." ++
      Text.decimal greatest ++ "]"
  | undefinedSymbol symbol _ => "undefined symbol '" ++ symbol ++ "'"
  | duplicateLabel label _ first =>
    "duplicate label '" ++ label ++ "' (first defined at " ++ first.text ++ ")"
  | branchOutOfRange symbol displacement greatest _ =>
    "branch target '" ++ symbol ++ "' out of range (displacement=" ++
      Text.decimal displacement ++ ", max=±" ++ Text.decimal greatest ++ ")"
  | malformed cause _ => cause.message
  | unreadable address length =>
    "cannot read " ++ Text.decimal length ++ " byte(s) at 0x" ++ Text.hex 6 address.toNat
  | noEncoding subject cause =>
    "internal error encoding '" ++ subject ++ "': " ++ cause.message

/-- What is wrong, behind its place if it has one. -/
def message (p : Problem) : String :=
  match p.span? with
  | some span => span.text ++ ": " ++ p.statement
  | none => p.statement

end Problem

namespace Report

/-! ## Collecting reports -/

/-- The report on a list of reports: none on an empty list, and a single report
is its own. -/
def collect : List Report → Option Report
  | [] => none
  | [r] => some r
  | rs => some (several rs)

/-- The report on a list of problems. -/
def ofProblems? (ps : List Problem) : Option Report :=
  collect (ps.map one)

/-- The problems of the report in order. -/
def problems : Report → List Problem
  | one p => [p]
  | several rs => rs.flatMap problems

/-- The place of the first problem. -/
def span? : Report → Option Span
  | one p => p.span?
  | several [] => none
  | several (r :: _) => r.span?

/-- Whether any problem is a fault of the assembler and not of its input. -/
def isInternal (r : Report) : Bool :=
  r.problems.any Problem.isInternal

/-- The messages of the reports, one to a line. -/
def message : Report → String
  | one p => p.message
  | several rs => "\n".intercalate (rs.map message)

@[simp] theorem collect_nil : collect [] = none := rfl

@[simp] theorem ofProblems?_nil : ofProblems? [] = none := rfl

/-- Only an empty list gives no report. -/
theorem ofProblems?_eq_none_iff {ps : List Problem} : ofProblems? ps = none ↔ ps = [] := by
  match ps with
  | [] => simp
  | [p] => simp [ofProblems?, collect]
  | p :: q :: ps => simp [ofProblems?, collect]

/-- A report on problems lists them all in order. -/
theorem problems_of_ofProblems? {ps : List Problem} {r : Report}
    (h : ofProblems? ps = some r) : r.problems = ps := by
  match ps with
  | [] => simp at h
  | [p] =>
    obtain rfl : one p = r := by simpa [ofProblems?, collect] using h
    simp [problems]
  | p :: q :: ps =>
    obtain rfl : several ((p :: q :: ps).map one) = r := by
      simpa [ofProblems?, collect] using h
    simp only [problems, List.flatMap_map]
    induction (p :: q :: ps) with
    | nil => rfl
    | cons s ss ih => simp [ih]

end Report

end Stm8
