import Stm8.Assembler

/-!
# Sessions

A session is a sequence of calls to one assembler. `Step` lists the calls,
`Assembler.perform` carries one out, and `Assembler.run` all of them; a state is
reachable if a session from the empty assembler leads to it.
-/

namespace Stm8

/-- A call to an assembler. -/
inductive Step where
  /-- Sets the address of the first byte. -/
  | base (address : UInt32)
  /-- Defines a symbol outside the program. -/
  | external (name : String) (value : UInt32)
  /-- Keeps source text from now on. -/
  | listing
  /-- Assembles source text. -/
  | emit (source : String)
  /-- Defines a label. -/
  | label (name : String)
  /-- Assembles an instruction. -/
  | instruction (mnemonic : String) (operands : List Operand)
  /-- Puts bytes. -/
  | data (bytes : List UInt8)
  /-- Puts a 16-bit number. -/
  | word (value : UInt16)
  deriving DecidableEq, Repr, Inhabited

namespace Assembler

/-- What is left of a call: the assembler as it is then, and the problems to report, of
which there is one or none. -/
def outcome (result : Assembler × Option Problem) : Assembler × List Problem :=
  (result.1, result.2.toList)

@[simp] theorem outcome_fst (result : Assembler × Option Problem) :
    (outcome result).1 = result.1 := rfl

@[simp] theorem outcome_snd (result : Assembler × Option Problem) :
    (outcome result).2 = result.2.toList := rfl

/-- The assembler after a call, and the problems that the call reports. -/
def perform (a : Assembler) : Step → Assembler × List Problem
  | .base address => (a.setBase address, [])
  | .external name value => (a.defineExternal name value, [])
  | .listing => (a.enableListing, [])
  | .emit source => a.emit source
  | .label name => outcome (a.defineLabel name)
  | .instruction mnemonic operands => outcome (a.instruction mnemonic operands)
  | .data bytes => (a.data bytes, [])
  | .word value => (a.word value, [])

theorem perform_instruction (a : Assembler) (m : String) (ops : List Operand) :
    a.perform (.instruction m ops) = outcome (a.instruction m ops) := rfl

/-- The assembler after a session. -/
def run (a : Assembler) (steps : List Step) : Assembler :=
  steps.foldl (fun a step => (a.perform step).1) a

/-- Whether a session leads to this state. -/
def Reachable (a : Assembler) : Prop :=
  ∃ steps, a = run {} steps

end Assembler

end Stm8
