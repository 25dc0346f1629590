import Stm8.Proofs.Assembler.Pieces
import Stm8.Session

/-!
# Invariants of sessions

Every call to an assembler is a sequence of elementary steps: a label is defined, bytes,
a cell or an encoded instruction are put behind the program, source text is kept, the
lines are counted. A property that no such step destroys (`IsPreserved`) is not destroyed
by a call either, and holds in all states that a session leads to:

> `IsPreserved.perform`, `IsPreserved.run`, `IsPreserved.of_reachable`
-/

namespace Stm8.Assembler

/-- A property that no elementary step of an assembler destroys. -/
structure IsPreserved (P : Assembler → Prop) : Prop where
  setBase : ∀ {a}, P a → ∀ address, P (a.setBase address)
  defineExternal : ∀ {a}, P a → ∀ name value, P (a.defineExternal name value)
  enableListing : ∀ {a}, P a → P a.enableListing
  defineLabel : ∀ {a}, P a → ∀ name span, P (a.defineLabel name span).1
  data : ∀ {a}, P a → ∀ bytes, P (a.data bytes)
  fill : ∀ {a}, P a → ∀ cell value span, P (a.fill cell value span)
  place : ∀ {a f ops e}, P a → f ∈ Form.all → f.encode ops = .ok e → P (a.place e)
  note : ∀ {a}, P a → ∀ offset text, P (a.note offset text)
  emitLine : ∀ {a : Assembler} {line},
    P (a.statement (withoutBreak line) (a.lines + 1) a.sourceBytes).1 → P (a.emitLine line).1

namespace IsPreserved

variable {P : Assembler → Prop} {a : Assembler}

/-! ## Statements -/

/-- A call that ends early leaves what it has come to so far. -/
theorem withResult {α : Type} (ha : P a) {x : Except Problem α}
    {rest : α → Assembler × Option Problem} (hrest : ∀ v, x = .ok v → P (rest v).1) :
    P (a.withResult x rest).1 := by
  cases x with
  | error problem => exact ha
  | ok v => exact hrest v rfl

theorem proceed {result : Assembler × Option Problem} (hresult : P result.1)
    {rest : Assembler → Assembler × Option Problem} (hrest : P result.1 → P (rest result.1).1) :
    P (Assembler.proceed result rest).1 := by
  obtain ⟨next, _ | problem⟩ := result
  · exact hrest hresult
  · exact hresult

theorem encodeForm (h : IsPreserved P) (ha : P a) {f : Form} (hf : f ∈ Form.all)
    (ops : List Operand) : P (a.encodeForm f ops).1 :=
  withResult ha fun _ he => h.place ha hf he

theorem directive (h : IsPreserved P) (ha : P a) (c : Command) : P (a.directive c).1 := by
  have hfold : ∀ (cell : Cell) (values : List (Value × Span)) {a : Assembler}, P a →
      P (values.foldl (fun a value => a.fill cell value.1 value.2) a) := by
    intro cell values
    induction values with
    | nil => exact fun ha => ha
    | cons value values ih => exact fun ha => ih (h.fill ha cell value.1 value.2)
  unfold Assembler.directive
  split
  · exact ha
  · next cell _ =>
    split
    · exact ha
    · exact withResult ha fun values _ => hfold cell values ha

theorem readInstruction (h : IsPreserved P) (ha : P a) (c : Command) :
    P (a.readInstruction c).1 := by
  rw [readInstruction_eq]
  refine withResult ha fun p hp => ?_
  obtain ⟨ops, f, e, -, hf, he, rfl⟩ := Piece.ofInstruction_eq_ok.mp hp
  exact h.place ha (mem_of_resolve hf) he

theorem command (h : IsPreserved P) (ha : P a) (c : Command) : P (a.command c).1 := by
  refine proceed ?_ fun hnext => h.note hnext a.code.length c.text
  split
  · exact h.directive ha c
  · exact h.readInstruction ha c

/-- Labels are defined up to the first one whose name is taken. -/
theorem defineLabels (h : IsPreserved P) {ps : List Part} :
    ∀ {a : Assembler}, P a → P (a.defineLabels ps).1 := by
  induction ps with
  | nil => exact fun ha => ha
  | cons p ps ih =>
    intro a ha
    exact proceed (h.defineLabel ha p.text p.span) ih

/-- A statement that is rejected leaves its labels. -/
theorem statement (h : IsPreserved P) (ha : P a) (text : List Char) (number offset : Nat) :
    P (a.statement text number offset).1 := by
  have hlabels : ∀ {line : Line} {labelled : Assembler} {problem? : Option Problem},
      a.defineLabels line.labels = (labelled, problem?) → P labelled := by
    intro line labelled problem? hdefine
    rw [show labelled = (a.defineLabels line.labels).1 from congrArg Prod.fst hdefine.symm]
    exact h.defineLabels ha
  have houtcome := a.isOutcome_statement text number offset
  generalize (a.statement text number offset).1 = next at houtcome ⊢
  generalize (a.statement text number offset).2 = problem? at houtcome
  cases houtcome with
  | unread _ => exact ha
  | taken _ hdefine => exact hlabels hdefine
  | bare _ hdefine _ => exact hlabels hdefine
  | refused _ hdefine _ _ => exact hlabels hdefine
  | @accepted _ labelled c p _ hdefine _ hpiece =>
    have hcommand := h.command (hlabels hdefine) c
    rw [command_eq, hpiece] at hcommand
    exact hcommand

/-! ## Calls -/

theorem emitLines (h : IsPreserved P) {lines : List (List Char)} :
    ∀ {a : Assembler}, P a → P (a.emitLines lines).1 := by
  induction lines with
  | nil => exact fun ha => ha
  | cons line lines ih => exact fun ha => ih (h.emitLine (h.statement ha _ _ _))

theorem instruction (h : IsPreserved P) (ha : P a) (m : String) (ops : List Operand) :
    P (a.instruction m ops).1 :=
  withResult ha fun _ hf =>
    proceed (h.encodeForm ha (mem_of_resolve (selectForm_eq_ok_iff.mp hf)) ops)
      fun hnext => h.note hnext a.code.length _

/-- A call does not destroy what no elementary step destroys. -/
theorem perform (h : IsPreserved P) (ha : P a) (step : Step) : P (a.perform step).1 := by
  cases step with
  | base address => exact h.setBase ha address
  | external name value => exact h.defineExternal ha name value
  | listing => exact h.enableListing ha
  | emit source => exact h.emitLines ha
  | label name => exact h.defineLabel ha name .nowhere
  | instruction m ops =>
    rw [perform_instruction, outcome_fst]
    exact h.instruction ha m ops
  | data bytes => exact h.data ha bytes
  | word value => exact h.data ha (bigEndian 2 value.toNat)

/-- Nor does a session. -/
theorem run (h : IsPreserved P) {steps : List Step} :
    ∀ {a : Assembler}, P a → P (a.run steps) := by
  induction steps with
  | nil => exact fun ha => ha
  | cons step steps ih => exact fun ha => ih (h.perform ha step)

/-- What holds at the start and is preserved holds in all states that can be reached. -/
theorem of_reachable (h : IsPreserved P) (hstart : P {}) (ha : a.Reachable) : P a := by
  obtain ⟨steps, rfl⟩ := ha
  exact h.run hstart

end IsPreserved

end Stm8.Assembler
