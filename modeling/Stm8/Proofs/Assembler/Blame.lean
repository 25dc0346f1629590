import Stm8.Proofs.Assembler.Linking
import Stm8.Proofs.Assembler.Pending
import Stm8.Proofs.Encoding.Fitting
import Stm8.Proofs.Operand.Shape

/-!
# Text never leads to an internal error

A problem is internal if the assembler has to blame itself for it. The encoder reports one
on operands that do not fit their form, and a request one on a field outside the code.
Neither can happen to a source text: operands that were read have their values, so those
that a form accepts are encoded by it, and the requests of a program are for fields inside
its code.

> `parsed_never_internal`: what is read from text, assembled and finished never leads to
> an internal error.
-/

namespace Stm8

/-! ## Failures -/

/-- Whether the input is to blame if the computation fails. -/
def BlamesInput {α : Type} (x : Except Problem α) : Prop :=
  ∀ p, x = .error p → p.isInternal = false

namespace BlamesInput

variable {α β : Type}

theorem ok (a : α) : BlamesInput (.ok a) := by
  intro p hp
  cases hp

theorem error {p : Problem} (h : p.isInternal = false) :
    BlamesInput (.error p : Except Problem α) := by
  intro q hq
  injection hq with hq
  rw [← hq]
  exact h

theorem bind {x : Except Problem α} {f : α → Except Problem β} (hx : BlamesInput x)
    (hf : ∀ a, x = .ok a → BlamesInput (f a)) : BlamesInput (x >>= f) := by
  cases x with
  | error p => exact error (hx p rfl)
  | ok a => exact hf a rfl

theorem map {x : Except Problem α} (hx : BlamesInput x) (f : α → β) : BlamesInput (x.map f) := by
  cases x with
  | error p => exact error (hx p rfl)
  | ok a => exact ok (f a)

end BlamesInput

/-! ## Reading -/

namespace Line

theorem blamesInput_operandParts (number offset : Nat) (slices : List Text.Slice) :
    BlamesInput (operandParts number offset slices) := by
  induction slices with
  | nil => exact .ok []
  | cons s rest ih =>
    unfold operandParts
    dsimp only
    split
    · exact .error rfl
    · exact ih.bind fun ps _ => .ok _

theorem blamesInput_operands (number offset : Nat) (args : Text.Slice) :
    BlamesInput (operands number offset args) := by
  unfold operands
  split
  · exact .ok []
  · split
    · exact .error rfl
    · exact .error rfl
    · refine (blamesInput_operandParts number offset _).bind fun ps _ => ?_
      split
      · exact .ok ps
      · exact .error rfl

/-- A line that cannot be parsed is wrong. -/
theorem blamesInput_parse (line : List Char) (number offset : Nat) :
    BlamesInput (parse line number offset) := by
  unfold parse
  dsimp only
  split
  · exact .ok _
  · exact (blamesInput_operands number offset _).bind fun ops _ => .ok _

end Line

theorem Operand.blamesInput_parse (cs : List Char) (span : Span) :
    BlamesInput (Operand.parse cs span) := by
  unfold Operand.parse
  cases classify cs with
  | error cause => exact .error rfl
  | ok found => exact .ok _

theorem blamesInput_readOperands (parts : List Part) : BlamesInput (readOperands parts) := by
  induction parts with
  | nil => exact .ok []
  | cons p parts ih =>
    exact (Operand.blamesInput_parse _ _).bind fun op _ => ih.bind fun ops _ => .ok _

theorem Cell.blamesInput_readValues (parts : List Part) : BlamesInput (readValues parts) := by
  induction parts with
  | nil => exact .ok []
  | cons p parts ih =>
    unfold readValues
    cases Value.parse? p.text.toList with
    | none => exact .error rfl
    | some v => exact ih.bind fun vs _ => .ok _

/-- Operands that were read have the values that their categories take. -/
theorem isFilled_of_parse {cs : List Char} {span : Span} {op : Operand}
    (h : Operand.parse cs span = .ok op) : op.IsFilled := by
  intro htakes
  rw [(Operand.isShape_of_parse h).filled]
  exact htakes

theorem isFilled_of_readOperands {parts : List Part} :
    ∀ {ops : List Operand}, readOperands parts = .ok ops → ∀ op ∈ ops, op.IsFilled := by
  induction parts with
  | nil =>
    intro ops h
    injection h with h
    rw [← h]
    exact fun op hop => absurd hop List.not_mem_nil
  | cons p parts ih =>
    intro ops h
    obtain ⟨op, hop, h⟩ := bind_eq_ok.mp h
    obtain ⟨rest, hrest, h⟩ := bind_eq_ok.mp h
    injection h with h
    rw [← h, List.forall_mem_cons]
    exact ⟨isFilled_of_parse hop, ih hrest⟩

/-! ## Pieces -/

/-- A form that is not found is the fault of the mnemonic or of the operands. -/
theorem blamesInput_selectForm (m : String) (ops : List Operand) (span : Span) :
    BlamesInput (selectForm m ops span) := by
  have hselect : BlamesInput (resolve m ops) := by
    unfold resolve select
    split
    · exact .ok _
    · split
      · exact .error rfl
      · exact .error rfl
  unfold selectForm
  rw [resolve_catalog]
  cases hresolve : resolve m ops with
  | ok f => exact .ok f
  | error p =>
    have hp := hselect p hresolve
    refine .error ?_
    cases p with
    | noEncoding subject cause => cases hp
    | _ => rfl

namespace Piece

theorem blamesInput_ofDirective (c : Command) : BlamesInput (ofDirective c) := by
  unfold ofDirective
  split
  · exact .error rfl
  · split
    · exact .error rfl
    · exact (Cell.blamesInput_readValues _).map _

/-- Operands that were read and fit a form are encoded by it. -/
theorem blamesInput_ofInstruction (c : Command) : BlamesInput (ofInstruction c) := by
  unfold ofInstruction
  refine (blamesInput_readOperands _).bind fun ops hops => ?_
  refine (blamesInput_selectForm _ _ _).bind fun f hf => ?_
  obtain ⟨hmem, -, haccepts⟩ := of_resolve (selectForm_eq_ok_iff.mp hf)
  obtain ⟨e, he⟩ := Form.exists_encode_of_accepts hmem haccepts (isFilled_of_readOperands hops)
  rw [he]
  exact .ok _

theorem blamesInput_ofCommand (c : Command) : BlamesInput (ofCommand c) := by
  unfold ofCommand
  split
  · exact blamesInput_ofDirective c
  · exact blamesInput_ofInstruction c

end Piece

/-! ## Problems that are kept -/

/-- Whether none of the problems is internal. -/
def NoneInternal (ps : List Problem) : Prop :=
  ∀ p ∈ ps, p.isInternal = false

theorem NoneInternal.append {ps qs : List Problem} (hp : NoneInternal ps) (hq : NoneInternal qs) :
    NoneInternal (ps ++ qs) := by
  intro p hmem
  rcases List.mem_append.mp hmem with hmem | hmem
  · exact hp p hmem
  · exact hq p hmem

theorem NoneInternal.nil : NoneInternal [] :=
  fun _ hp => absurd hp List.not_mem_nil

/-- A report is as good as its problems. -/
theorem NoneInternal.report {ps : List Problem} (h : NoneInternal ps) {report : Report}
    (hreport : Report.ofProblems? ps = some report) : report.isInternal = false := by
  rw [Report.isInternal, Report.problems_of_ofProblems? hreport, List.any_eq_false]
  intro p hp
  rw [h p hp]
  exact Bool.false_ne_true

/-- Values that do not fit their fields are wrong. -/
theorem noneInternal_notes (s : Slot) : NoneInternal s.notes := by
  unfold Slot.notes
  intro p hp
  split at hp
  · split at hp
    · obtain rfl := List.mem_singleton.mp hp
      rfl
    · cases hp
  · cases hp

theorem noneInternal_of_encode {f : Form} {ops : List Operand} {e : Encoding}
    (h : f.encode ops = .ok e) : NoneInternal e.diagnostics := by
  intro p hp
  rw [(Form.hasLayout_of_encode h).2.diagnostics] at hp
  obtain ⟨s, -, hs⟩ := List.mem_flatMap.mp hp
  exact noneInternal_notes s p hs

theorem Piece.noneInternal_ofCell (c : Cell) (v : Value) (span : Span) :
    NoneInternal (ofCell c v span).diagnostics := by
  cases v with
  | symbol s => exact .nil
  | const v =>
    intro p hp
    unfold ofCell at hp
    dsimp only at hp
    split at hp
    · obtain rfl := List.mem_singleton.mp hp
      rfl
    · cases hp

theorem Relocation.isInternal_of_problem? {r : Relocation} {base : UInt32}
    {value? : String → Option Int} {p : Problem} (h : r.problem? base value? = some p) :
    p.isInternal = false := by
  unfold problem? at h
  split at h
  · cases h
  · dsimp only at h
    split at h
    · injection h with h
      rw [← h]
      unfold rangeProblem
      split <;> rfl
    · cases h

namespace Assembler

/-! ## Statements -/

theorem isInternal_of_defineLabels {ps : List Part} :
    ∀ {a : Assembler} {p : Problem}, (a.defineLabels ps).2 = some p → p.isInternal = false := by
  induction ps with
  | nil => intro a p h; cases h
  | cons part ps ih =>
    intro a p h
    rw [defineLabels, defineLabel] at h
    split at h
    · obtain rfl := Option.some.inj h
      rfl
    · exact ih h

/-- A statement that is rejected is wrong. -/
theorem isInternal_of_statement {a : Assembler} {text : List Char} {number offset : Nat}
    {p : Problem} (h : (a.statement text number offset).2 = some p) : p.isInternal = false := by
  have houtcome := a.isOutcome_statement text number offset
  rw [h] at houtcome
  generalize (a.statement text number offset).1 = next at houtcome
  cases houtcome with
  | unread hline => exact Line.blamesInput_parse text number offset p hline
  | taken _ hdefine => exact isInternal_of_defineLabels (congrArg Prod.snd hdefine)
  | refused _ _ _ hpiece => exact Piece.blamesInput_ofCommand _ p hpiece

theorem noneInternal_emitLine (a : Assembler) (line : List Char) :
    NoneInternal (a.emitLine line).2.toList := by
  intro p hp
  exact isInternal_of_statement (Option.mem_toList.mp hp)

/-- Whatever the text, the statements that are rejected are wrong. -/
theorem noneInternal_emitLines (a : Assembler) (lines : List (List Char)) :
    NoneInternal (a.emitLines lines).2 := by
  induction lines generalizing a with
  | nil => exact .nil
  | cons line lines ih => exact (noneInternal_emitLine a line).append (ih _)

/-! ## Whole programs -/

/-- Whether nothing that is known to be wrong with the program is internal. -/
structure IsBlameless (a : Assembler) : Prop where
  /-- Statements were rejected for what they say. -/
  rejections : NoneInternal a.rejections
  /-- What was noted are constants that do not fit their fields. -/
  diagnostics : NoneInternal a.diagnostics

/-- The assembler stays blameless. -/
theorem isPreserved_isBlameless : IsPreserved IsBlameless where
  setBase := fun ha _ => ⟨ha.rejections, ha.diagnostics⟩
  defineExternal := fun ha _ _ => ⟨ha.rejections, ha.diagnostics⟩
  enableListing := fun ha => ⟨ha.rejections, ha.diagnostics⟩
  defineLabel := by
    intro a ha name span
    unfold defineLabel
    split <;> exact ⟨ha.rejections, ha.diagnostics⟩
  data := fun ha _ => ⟨ha.rejections, ha.diagnostics⟩
  fill := by
    intro a ha c v span
    rw [fill_eq]
    exact ⟨ha.rejections, ha.diagnostics.append (Piece.noneInternal_ofCell c v span)⟩
  place := fun ha _ he => ⟨ha.rejections, ha.diagnostics.append (noneInternal_of_encode he)⟩
  note := by
    intro a ha offset text
    unfold note
    split
    · exact ⟨ha.rejections, ha.diagnostics⟩
    · exact ha
  emitLine := fun ha => ⟨ha.rejections.append (noneInternal_emitLine _ _), ha.diagnostics⟩

/-- Every program is blameless. -/
theorem isBlameless_of_reachable {a : Assembler} (ha : a.Reachable) : a.IsBlameless :=
  isPreserved_isBlameless.of_reachable ⟨.nil, .nil⟩ ha

/-- Nor does carrying out the requests of a program lead to internal errors. -/
theorem noneInternal_link {a : Assembler} (ha : a.Reachable) : NoneInternal a.link.diagnostics := by
  rw [link_eq (isPending_of_reachable ha).inside]
  refine (isBlameless_of_reachable ha).diagnostics.append fun p hp => ?_
  obtain ⟨r, -, hr⟩ := List.mem_filterMap.mp hp
  exact Relocation.isInternal_of_problem? hr

end Assembler

open Operand.Kind in
/-- **Text never leads to an internal error.** Operands that were read have a value
exactly if their category takes one, and a symbol that is marked only in some of them; so
if they resolve to a form, they are encoded by it. And in a program, whatever it was
assembled from, neither the text that is assembled next nor finishing it leads to an
internal error. -/
theorem parsed_never_internal :
    (∀ cs span op, Operand.parse cs span = .ok op →
      op.value.isSome = op.kind.takesValue ∧
        ∀ r, op.value = some (.symbol r) → r.short = true →
          op.kind ∈ [offsetX, offsetY, offsetSp, pointerNear, pointerNearX, pointerNearY]) ∧
    (∀ m ops f, (∀ op ∈ ops, ∃ cs span, Operand.parse cs span = .ok op) →
      resolve m ops = .ok f → ∃ e, f.encode ops = .ok e) ∧
    ∀ a : Assembler, a.Reachable →
      (∀ source report, Report.ofProblems? (a.emit source).2 = some report →
        report.isInternal = false) ∧
      (∀ report, a.finish = .error report → report.isInternal = false) ∧
      ∀ image, a.finish = .ok image → ∀ p ∈ image.diagnostics, p.isInternal = false := by
  refine ⟨?_, ?_, ?_⟩
  · intro cs span op hop
    have hshape := Operand.isShape_of_parse hop
    refine ⟨hshape.filled, fun r hr hshort => ?_⟩
    have hmark := hshape.marked (.symbol r) hr hshort
    cases hkind : op.kind <;> rw [hkind] at hmark <;> first | decide | cases hmark
  · intro m ops f hops hf
    obtain ⟨hmem, -, haccepts⟩ := of_resolve hf
    refine Form.exists_encode_of_accepts hmem haccepts fun op hop => ?_
    obtain ⟨cs, span, hparse⟩ := hops op hop
    exact isFilled_of_parse hparse
  · intro a ha
    refine ⟨?_, ?_, ?_⟩
    · intro source report hreport
      exact (Assembler.noneInternal_emitLines a _).report hreport
    · intro report hreport
      rcases a.finish_cases with ⟨-, himage⟩ | ⟨rejected, hrejected, hfinish⟩
      · rw [himage] at hreport
        cases hreport
      · rw [hfinish] at hreport
        obtain rfl : rejected = report := Except.error.inj hreport
        exact (Assembler.isBlameless_of_reachable ha).rejections.report hrejected
    · intro image himage
      rcases a.finish_cases with ⟨-, hfinish⟩ | ⟨rejected, -, hfinish⟩
      · rw [hfinish] at himage
        obtain rfl : a.image = image := Except.ok.inj himage
        exact Assembler.noneInternal_link ha
      · rw [hfinish] at himage
        cases himage

/-- A marked symbol that is encoded, and a bracket that is rejected. -/
theorem parsed_never_internal_marked :
    (∃ e, Form.encode ⟨"ld", [.reg .a, .shortOffX], 0xE6⟩
      [.register .a, .withValue .offsetX (.ofShortName "table")] = .ok e) ∧
    ∃ report, (Assembler.run {} [.emit "push ["]).finish = .error report ∧
      report.isInternal = false := by
  obtain ⟨-, hencoded, hprograms⟩ := parsed_never_internal
  constructor
  · have hread : ∀ op ∈ [Operand.register .a, .withValue .offsetX (.ofShortName "table")],
        ∃ cs span, Operand.parse cs span = .ok op := by
      have hregister : Operand.parse "A".toList = .ok (.register .a) := by rfl
      have hoffset : Operand.parse "(table.s,X)".toList =
          .ok (.withValue .offsetX (.ofShortName "table")) := by rfl
      intro op hop
      rcases List.mem_cons.mp hop with rfl | hop
      · exact ⟨_, _, hregister⟩
      · obtain rfl := List.mem_singleton.mp hop
        exact ⟨_, _, hoffset⟩
    exact hencoded "ld" _ _ hread (select_eq_ok_iff.mpr (by decide +kernel))
  · obtain ⟨-, hfinished, -⟩ := hprograms _ ⟨[.emit "push ["], rfl⟩
    rcases (Assembler.run {} [.emit "push ["]).finish_cases with ⟨hnone, -⟩ | ⟨report, -, hfinish⟩
    · have hrejected : (Assembler.run {} [.emit "push ["]).rejections ≠ [] := by
        decide +kernel
      exact absurd hnone hrejected
    · exact ⟨report, hfinish, hfinished report hfinish⟩

end Stm8
