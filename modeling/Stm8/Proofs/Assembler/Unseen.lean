import Stm8.Proofs.Assembler.Pieces
import Stm8.Session

/-!
# What statements do not see

Statements look at the labels, at the length of the code and at nothing else in an
assembler. So the base address, the symbols from outside and the listing can be changed
before a statement or after it:

> `IsUnseen.perform`: a change that the elementary steps do not see can be made before or
> after every call that assembles something.
> `isUnseen_configured`, `isUnseen_muted`: these two are such changes.
-/

namespace Stm8

/-- Whether the call assembles something. The others configure the assembler, or turn on
its listing. -/
def Step.isAssembling : Step → Bool
  | emit _ | label _ | instruction _ _ | data _ | word _ => true
  | base _ | external _ _ | listing => false

namespace Assembler

/-- The result of a call with the change made to the assembler. -/
def changed {α : Type} (change : Assembler → Assembler) (result : Assembler × α) : Assembler × α :=
  (change result.1, result.2)

/-- A change of an assembler that none of its elementary steps sees: it can be made before
the step or after it. -/
structure IsUnseen (change : Assembler → Assembler) : Prop where
  code : ∀ a, (change a).code = a.code
  rejections : ∀ a, (change a).rejections = a.rejections
  lines : ∀ a, (change a).lines = a.lines
  sourceBytes : ∀ a, (change a).sourceBytes = a.sourceBytes
  extend : ∀ a p, (change a).extend p = change (a.extend p)
  note : ∀ a offset text, (change a).note offset text = change (a.note offset text)
  defineLabel : ∀ a name span,
    (change a).defineLabel name span = changed change (a.defineLabel name span)
  count : ∀ a lines sourceBytes rejections,
    { change a with lines, sourceBytes, rejections } =
      change { a with lines, sourceBytes, rejections }

section

variable {change : Assembler → Assembler}

/-- A change made before a call that needs the result of `x` is made to what the call
leaves, if that is so for its rest. -/
theorem withResult_changed {α : Type} (a : Assembler) (x : Except Problem α)
    {rest rest' : α → Assembler × Option Problem}
    (hrest : ∀ v, rest' v = changed change (rest v)) :
    (change a).withResult x rest' = changed change (a.withResult x rest) := by
  cases x with
  | error problem => rfl
  | ok v => exact hrest v

/-- So it is for the rest of a call after another one. -/
theorem proceed_changed (result : Assembler × Option Problem)
    {rest rest' : Assembler → Assembler × Option Problem}
    (hrest : ∀ next, rest' (change next) = changed change (rest next)) :
    proceed (changed change result) rest' = changed change (proceed result rest) := by
  rcases result with ⟨next, _ | problem⟩
  · exact hrest next
  · rfl

theorem outcome_changed (result : Assembler × Option Problem) :
    outcome (changed change result) = changed change (outcome result) := rfl

end

namespace IsUnseen

variable {change : Assembler → Assembler} (h : IsUnseen change) (a : Assembler)

include h

/-! ## Statements -/

theorem command (c : Command) : (change a).command c = changed change (a.command c) := by
  rw [command_eq, command_eq]
  refine withResult_changed a _ fun p => ?_
  rw [h.code, h.extend, h.note]
  rfl

theorem defineLabels (ps : List Part) :
    (change a).defineLabels ps = changed change (a.defineLabels ps) := by
  induction ps generalizing a with
  | nil => rfl
  | cons p ps ih =>
    rw [Assembler.defineLabels, Assembler.defineLabels, h.defineLabel]
    exact proceed_changed _ ih

theorem statement (text : List Char) (number offset : Nat) :
    (change a).statement text number offset = changed change (a.statement text number offset) := by
  refine withResult_changed a _ fun line => ?_
  rw [h.defineLabels]
  refine proceed_changed _ fun next => ?_
  cases line.command with
  | none => rfl
  | some c => exact h.command next c

theorem emitLine (line : List Char) :
    (change a).emitLine line = changed change (a.emitLine line) := by
  unfold Assembler.emitLine
  rw [h.lines, h.sourceBytes, h.statement]
  generalize a.statement (withoutBreak line) (a.lines + 1) a.sourceBytes = result
  obtain ⟨next, problem⟩ := result
  show ({ change next with
      lines := a.lines + 1
      sourceBytes := a.sourceBytes + Text.width line
      rejections := (change next).rejections ++ problem.toList }, problem) = _
  rw [h.rejections, h.count]
  rfl

theorem emitLines (lines : List (List Char)) :
    (change a).emitLines lines = changed change (a.emitLines lines) := by
  induction lines generalizing a with
  | nil => rfl
  | cons line lines ih =>
    unfold Assembler.emitLines
    rw [h.emitLine, changed]
    dsimp only
    rw [ih, changed]
    rfl

/-! ## Calls -/

theorem instruction (m : String) (ops : List Operand) :
    (change a).instruction m ops = changed change (a.instruction m ops) := by
  refine withResult_changed a _ fun f => ?_
  have hencode : (change a).encodeForm f ops = changed change (a.encodeForm f ops) :=
    withResult_changed a _ fun e => by rw [place_eq, place_eq, h.extend, changed]
  rw [hencode]
  refine proceed_changed _ fun next => ?_
  show ((change next).note (change a).code.length _, none) = (change (next.note _ _), none)
  rw [h.note, h.code]

theorem data (bytes : List UInt8) : (change a).data bytes = change (a.data bytes) := by
  rw [data_eq, data_eq, h.extend]

/-- **The change can be made before or after a call that assembles something.** -/
theorem perform {step : Step} (hstep : step.isAssembling = true) :
    (change a).perform step = changed change (a.perform step) := by
  cases step with
  | base address => cases hstep
  | external name value => cases hstep
  | listing => cases hstep
  | emit source => exact h.emitLines a _
  | label name =>
    rw [Assembler.perform, h.defineLabel, outcome_changed]
    rfl
  | instruction m ops =>
    rw [perform_instruction, perform_instruction, h.instruction, outcome_changed]
  | data bytes => exact congrArg (·, []) (h.data a bytes)
  | word value => exact congrArg (·, []) (h.data a _)

end IsUnseen

/-! ## Changes that are not seen -/

/-- The assembler with another base address and with other symbols from outside. -/
def configured (base : UInt32) (externals : Std.TreeMap String UInt32) (a : Assembler) :
    Assembler :=
  { a with base, externals }

/-- The assembler without its listing. -/
def muted (a : Assembler) : Assembler :=
  { a with listing := false, notes := [] }

/-- Statements do not see how the assembler is configured. -/
theorem isUnseen_configured (base : UInt32) (externals : Std.TreeMap String UInt32) :
    IsUnseen (configured base externals) where
  code := fun _ => rfl
  rejections := fun _ => rfl
  lines := fun _ => rfl
  sourceBytes := fun _ => rfl
  extend := fun _ _ => rfl
  note := by
    intro a offset text
    unfold Assembler.note
    by_cases hlisting : a.listing = true
    · rw [if_pos hlisting, if_pos (show (configured base externals a).listing = true from hlisting)]
      rfl
    · rw [if_neg hlisting,
        if_neg (show ¬(configured base externals a).listing = true from hlisting)]
  defineLabel := by
    intro a name span
    have hindex : (configured base externals a).labelIndex[name]? = a.labelIndex[name]? := rfl
    unfold Assembler.defineLabel
    rw [hindex]
    cases a.labelIndex[name]? <;> rfl
  count := fun _ _ _ _ => rfl

/-- Statements do not see whether source text is kept. -/
theorem isUnseen_muted : IsUnseen muted where
  code := fun _ => rfl
  rejections := fun _ => rfl
  lines := fun _ => rfl
  sourceBytes := fun _ => rfl
  extend := fun _ _ => rfl
  note := by
    intro a offset text
    unfold Assembler.note
    show muted a = _
    by_cases hlisting : a.listing = true
    · rw [if_pos hlisting]
      rfl
    · rw [if_neg hlisting]
  defineLabel := by
    intro a name span
    have hindex : (muted a).labelIndex[name]? = a.labelIndex[name]? := rfl
    unfold Assembler.defineLabel
    rw [hindex]
    cases a.labelIndex[name]? <;> rfl
  count := fun _ _ _ _ => rfl

end Assembler

end Stm8
