import Stm8.Proofs.Encoding.Places
import Stm8.Proofs.Instruction.Display

/-!
# Instructions that are built and instructions that are written

An instruction can be added to a program by a call with its operands
(`Assembler.instruction`), or as a line of source text (`Assembler.emit`). Written out,
operands lose their places and the marks that their texts do not show, which is nothing
that encoding looks at:

> `emit_instruction`: the call and the line with the texts of its operands are both
> accepted or both rejected, and add the same bytes, requests and notes.
-/

namespace Stm8

open Stm8.Text
open Line (IsWord IsOperand argumentText)

/-! ## Mnemonics -/

/-- A mnemonic in either case is a word, and no directive. -/
theorem isWord_of_hasMnemonic {f : Form} (hf : f ∈ Form.all) {m : String}
    (hm : f.hasMnemonic m = true) : IsWord m.toList ∧ m.toList.head? ≠ some '.' := by
  obtain ⟨family, hfamily, hmem⟩ := Form.mem_all_iff.mp hf
  obtain ⟨hne, hplain, hdot⟩ := Form.Family.isWord_mnemonic family hfamily
  have hlower : m.toList.map Char.toLower = family.mnemonic.toList := by
    rw [← Form.Family.lower_mnemonic family hfamily, ← Form.Family.mnemonic_eq hmem]
    exact (beq_iff_eq.mp hm).symm
  refine ⟨⟨?_, fun c hc => ?_⟩, ?_⟩
  · intro hnil
    rw [hnil] at hlower
    exact hne hlower.symm
  · refine isPlain_of_toLower (hplain _ ?_)
    rw [← hlower]
    exact List.mem_map_of_mem hc
  · intro hhead
    rw [← hlower, List.head?_map, hhead] at hdot
    exact hdot rfl

/-! ## Operands -/

/-- The text of an operand can stand between commas. -/
theorem Operand.isOperand_text {op : Operand} (h : op.IsWritable) : IsOperand op.text.toList := by
  obtain ⟨kind, value, span⟩ := op
  cases value with
  | none =>
    have htakes : kind.takesValue = false := h.filled.symm
    -- without a value, any text in its place is left out
    have hspell : kind.spell "" = kind.spell "0" := by
      cases kind <;> first | rfl | cases htakes
    unfold text
    dsimp only
    rw [htakes, if_neg Bool.false_ne_true, hspell]
    exact isOperand_spell kind (by decide) (by decide)
  | some v =>
    have hspelled := Value.isSpelledBy_text (h.writable v rfl)
    have hmarks : ∀ c ∈ ".s".toList, isPlain c = true := by decide
    refine isOperand_spell kind (fun c hc => ?_) ?_
    · rw [String.toList_append, List.mem_append] at hc
      rcases hc with hc | hc
      · exact hspelled.plain c hc
      · split at hc
        · exact hmarks c hc
        · cases hc
    · rw [String.toList_append]
      exact List.append_ne_nil_of_left_ne_nil hspelled.ne_nil _

/-- The texts of operands are read as operands that differ from them in nothing that
encoding looks at. -/
theorem readOperands_texts {parts : List Part} {ops : List Operand}
    (htexts : parts.map Part.text = ops.map Operand.text) (hops : ∀ op ∈ ops, op.IsWritable) :
    ∃ read, readOperands parts = .ok read ∧ read.map Operand.bare = ops.map Operand.bare ∧
      ∀ op ∈ read, op.IsFilled := by
  induction parts generalizing ops with
  | nil =>
    obtain rfl : ops = [] := List.map_eq_nil_iff.mp htexts.symm
    exact ⟨[], rfl, rfl, by simp⟩
  | cons p parts ih =>
    cases ops with
    | nil => cases htexts
    | cons op ops =>
      rw [List.map_cons, List.map_cons, List.cons.injEq] at htexts
      rw [List.forall_mem_cons] at hops
      obtain ⟨read, hread, hbare, hfilled⟩ := ih htexts.2 hops.2
      refine ⟨{ kind := op.kind, value := op.shownValue, span := p.span } :: read, ?_, ?_, ?_⟩
      · rw [readOperands, htexts.1, Operand.parse_text hops.1, ok_bind, hread]
        rfl
      · rw [List.map_cons, List.map_cons, hbare, op.bare_shown]
      · rw [List.forall_mem_cons]
        refine ⟨fun htakes => ?_, hfilled⟩
        show (op.value.map _).isSome = true
        rw [Option.isSome_map, hops.1.filled]
        exact htakes

theorem Problem.unplaced_orAt (p : Problem) (span : Span) :
    (p.orAt span).unplaced = p.unplaced := by
  cases p <;> rfl

/-- Operands that agree in what encoding looks at select the same form and are encoded
alike, or have the same problem. -/
theorem encode_alike {m : String} {ops read : List Operand}
    (hbare : read.map Operand.bare = ops.map Operand.bare) (hops : ∀ op ∈ ops, op.IsFilled)
    (hread : ∀ op ∈ read, op.IsFilled) (span span' : Span) :
    (∃ f e e', selectForm m ops span = .ok f ∧ f.encode ops = .ok e ∧
        selectForm m read span' = .ok f ∧ f.encode read = .ok e' ∧ e'.unplaced = e.unplaced) ∨
      ∃ p p', selectForm m ops span = .error p ∧ selectForm m read span' = .error p' ∧
        p'.unplaced = p.unplaced := by
  have hsame : (resolve m read).mapError Problem.unplaced =
      (resolve m ops).mapError Problem.unplaced := by
    rw [← resolve_bare, ← resolve_bare, hbare]
  cases hselect : resolve m ops with
  | ok f =>
    rw [hselect] at hsame
    have hselect' : resolve m read = .ok f := mapError_eq_ok.mp hsame
    obtain ⟨hf, -, haccepts⟩ := of_resolve hselect
    obtain ⟨e, he⟩ := Form.exists_encode_of_accepts hf haccepts hops
    obtain ⟨e', he'⟩ := Form.exists_encode_of_accepts hf (of_resolve hselect').2.2 hread
    have halike := Form.encode_bare hf he'
    rw [hbare, Form.encode_bare hf he] at halike
    exact Or.inl ⟨f, e, e', selectForm_eq_ok_iff.mpr hselect, he,
      selectForm_eq_ok_iff.mpr hselect', he', (Except.ok.inj halike).symm⟩
  | error p =>
    rw [hselect] at hsame
    cases hselect' : resolve m read with
    | ok f =>
      rw [hselect'] at hsame
      cases hsame
    | error p' =>
      rw [hselect'] at hsame
      refine Or.inr ⟨p.orAt span, p'.orAt span', ?_, ?_, ?_⟩
      · rw [selectForm, resolve_catalog, hselect]
        rfl
      · rw [selectForm, resolve_catalog, hselect']
        rfl
      · rw [Problem.unplaced_orAt, Problem.unplaced_orAt]
        exact Except.error.inj hsame

/-! ## Lines -/

namespace Assembler

/-- Whether two programs have added the same to the program `a`, apart from the places of
operands. -/
structure ExtendAlike (a next next' : Assembler) : Prop where
  /-- The same bytes. -/
  code : ∃ bytes, next.code = a.code ++ bytes ∧ next'.code = a.code ++ bytes
  /-- The same requests. -/
  relocations : ∃ rs rs', next.relocations = a.relocations ++ rs ∧
    next'.relocations = a.relocations ++ rs' ∧
    rs'.map Relocation.unplaced = rs.map Relocation.unplaced
  /-- The same notes. -/
  diagnostics : ∃ ps ps', next.diagnostics = a.diagnostics ++ ps ∧
    next'.diagnostics = a.diagnostics ++ ps' ∧
    ps'.map Problem.unplaced = ps.map Problem.unplaced

theorem extendAlike_place (a : Assembler) {e e' : Encoding} (h : e'.unplaced = e.unplaced) :
    ExtendAlike a (a.place e) (a.place e') := by
  have hshift : ∀ rs : List Relocation, (rs.map (·.shift a.code.length)).map Relocation.unplaced =
      (rs.map Relocation.unplaced).map (·.shift a.code.length) := by
    intro rs
    rw [List.map_map, List.map_map]
    rfl
  have hcode : e'.unplaced.code = e.unplaced.code := congrArg Encoding.code h
  refine ⟨⟨e.code.toList, rfl, congrArg (a.code ++ CodeBuffer.toList ·) hcode⟩,
    ⟨_, _, rfl, rfl, ?_⟩, ⟨_, _, rfl, rfl, ?_⟩⟩
  · rw [hshift, hshift]
    exact congrArg (List.map (·.shift a.code.length)) (congrArg Encoding.relocations h)
  · exact congrArg Encoding.diagnostics h

/-- What a program consists of does not depend on the source text that is kept. -/
theorem ExtendAlike.note {a next next' : Assembler} (h : a.ExtendAlike next next')
    (offset offset' : Nat) (text text' : String) :
    a.ExtendAlike (next.note offset text) (next'.note offset' text') := by
  have hkeep : ∀ (b : Assembler) offset text, (b.note offset text).code = b.code ∧
      (b.note offset text).relocations = b.relocations ∧
      (b.note offset text).diagnostics = b.diagnostics := by
    intro b offset text
    unfold Assembler.note
    split <;> exact ⟨rfl, rfl, rfl⟩
  obtain ⟨hcode, hrelocations, hdiagnostics⟩ := hkeep next offset text
  obtain ⟨hcode', hrelocations', hdiagnostics'⟩ := hkeep next' offset' text'
  constructor
  · rw [hcode, hcode']
    exact h.code
  · rw [hrelocations, hrelocations']
    exact h.relocations
  · rw [hdiagnostics, hdiagnostics']
    exact h.diagnostics

/-- A line with a command and no labels does what the command does. -/
theorem emit_command (a : Assembler) {source : String} {c : Command} (hline : IsLine source.toList)
    (hparse : Line.parse source.toList (a.lines + 1) a.sourceBytes = .ok ⟨[], some c⟩) :
    (∀ next, a.command c = (next, none) → (a.emit source).2 = [] ∧
        ∃ lines sourceBytes rejections,
          (a.emit source).1 = { next with lines, sourceBytes, rejections }) ∧
      ∀ next p, a.command c = (next, some p) → (a.emit source).2 = [p] := by
  rw [emit, splitLines_of_isLine hline]
  rw [emitLines, emitLine, withoutBreak_eq_self hline.solid, statement, hparse, withResult_ok,
    defineLabels, proceed_none]
  dsimp only
  constructor
  · intro next hnext
    rw [hnext]
    exact ⟨rfl, _, _, _, rfl⟩
  · intro next p hp
    rw [hp]
    rfl

end Assembler

/-- The line of an instruction is parsed to its mnemonic and the texts of its operands. -/
theorem parse_instruction {m : String} (hm : IsWord m.toList) {ops : List Operand}
    (hcount : ops.length ≤ maxOperands) (hops : ∀ op ∈ ops, op.IsWritable) :
    Assembler.IsLine (m ++ " " ++ Operand.texts ops).toList ∧
      ∀ number offset, ∃ c : Command,
        Line.parse (m ++ " " ++ Operand.texts ops).toList number offset = .ok ⟨[], some c⟩ ∧
        c.name.text = m ∧ c.operands.map Part.text = ops.map Operand.text := by
  -- the blank belongs to the operands, if there are any
  have hline : (m ++ " " ++ Operand.texts ops).toList =
      m.toList ++ argumentText ((ops.map Operand.text).map String.toList) ++
        (if ops = [] then [' '] else []) := by
    unfold Operand.texts argumentText
    cases ops with
    | nil => simp
    | cons op ops => simp [String.toList_intercalate]
  have htexts : ∀ o ∈ (ops.map Operand.text).map String.toList, IsOperand o := by
    rw [List.forall_mem_map, List.forall_mem_map]
    exact fun op hop => Operand.isOperand_text (hops op hop)
  have hremark : ∀ c ∈ (if ops = [] then [' '] else []), isBlank c = true ∧ c ≠ ';' ∧
      c ≠ '\n' ∧ c ≠ '\r' := by
    split <;> decide
  have hcut : (if ops = [] then [' '] else []).takeWhile (· != ';') =
      if ops = [] then [' '] else [] := by
    split <;> rfl
  rw [hline]
  refine ⟨isLine_of_command hm htexts fun c hc => (hremark c hc).2.2, fun number offset => ?_⟩
  obtain ⟨c, hparse, hname, hparts⟩ := Line.parse_line hm htexts
    (by rw [List.length_map, List.length_map]; exact hcount) hcut
    (fun c hc => (hremark c hc).1) number offset
  refine ⟨c, hparse, ?_, ?_⟩
  · rw [hname, String.ofList_toList]
  · rw [hparts, List.map_map]
    simp

/-! ## The call and the line -/

/-- **An instruction that is built and the line that spells it do the same.** -/
theorem Assembler.emit_instruction (a : Assembler) {m : String}
    (hm : ∃ f ∈ Form.all, f.hasMnemonic m = true) {ops : List Operand}
    (hcount : ops.length ≤ maxOperands) (hops : ∀ op ∈ ops, op.IsWritable) :
    (∀ next, a.instruction m ops = (next, none) →
        (a.emit (m ++ " " ++ Operand.texts ops)).2 = [] ∧
          a.ExtendAlike next (a.emit (m ++ " " ++ Operand.texts ops)).1) ∧
      ∀ next p, a.instruction m ops = (next, some p) →
        ∃ q, (a.emit (m ++ " " ++ Operand.texts ops)).2 = [q] ∧ q.unplaced = p.unplaced := by
  obtain ⟨f, hf, hf'⟩ := hm
  obtain ⟨hword, hdot⟩ := isWord_of_hasMnemonic hf hf'
  obtain ⟨hline, hparse⟩ := parse_instruction hword hcount hops
  obtain ⟨c, hparse, hname, htexts⟩ := hparse (a.lines + 1) a.sourceBytes
  obtain ⟨hok, herror⟩ := a.emit_command hline hparse
  obtain ⟨read, hread, hbare, hfilled⟩ := readOperands_texts htexts hops
  have hcommand : a.command c =
      proceed (a.withResult (selectForm m read c.name.span) fun f => a.encodeForm f read)
        fun next => (next.note a.code.length c.text, none) := by
    have hdirective : (c.name.text.toList.head? == some '.') = false := by
      rw [hname]
      exact beq_eq_false_iff_ne.mpr hdot
    rw [command, hdirective, if_neg Bool.false_ne_true, readInstruction, hread, hname,
      withResult_ok]
  rcases encode_alike (m := m) hbare (fun op hop htakes => (hops op hop).filled.trans htakes)
      hfilled .nowhere c.name.span with
    ⟨f, e, e', hselect, he, hselect', he', halike⟩ | ⟨p, p', hselect, hselect', halike⟩
  · have hcommand' : a.command c = ((a.place e').note a.code.length c.text, none) := by
      rw [hcommand, hselect', withResult_ok, encodeForm, he', withResult_ok, proceed_none]
    obtain ⟨hproblems, lines, sourceBytes, rejections, hprogram⟩ := hok _ hcommand'
    have hinstruction : ∃ text,
        a.instruction m ops = ((a.place e).note a.code.length text, none) := by
      rw [instruction, hselect, withResult_ok, encodeForm, he, withResult_ok, proceed_none]
      exact ⟨_, rfl⟩
    obtain ⟨text, hinstruction⟩ := hinstruction
    rw [hinstruction, hproblems, hprogram]
    refine ⟨fun next hnext => ⟨rfl, ?_⟩, fun next p hp => ?_⟩
    · obtain rfl := congrArg Prod.fst hnext
      obtain ⟨hcode, hrelocations, hdiagnostics⟩ :=
        (a.extendAlike_place halike).note a.code.length a.code.length text c.text
      exact ⟨hcode, hrelocations, hdiagnostics⟩
    · cases congrArg Prod.snd hp
  · have hcommand' : a.command c = (a, some p') := by
      rw [hcommand, hselect', withResult_error, proceed_some]
    have hinstruction : a.instruction m ops = (a, some p) := by
      rw [instruction, hselect, withResult_error]
    rw [hinstruction, herror a p' hcommand']
    refine ⟨fun next hnext => ?_, fun next q hq => ?_⟩
    · cases congrArg Prod.snd hnext
    · obtain rfl := Option.some.inj (congrArg Prod.snd hq)
      exact ⟨p', rfl, halike⟩

/-- A symbol in page zero with a negative addend, behind another instruction. -/
theorem Assembler.emit_instruction_ldw :
    let a : Assembler := Assembler.data {} [0x9D]
    let ops : List Operand := [.withValue .offsetX (.symbol ⟨"table", -3, true⟩), .register .y]
    (∃ f ∈ Form.all, f.hasMnemonic "LdW" = true) ∧ ops.length ≤ maxOperands ∧
      (∀ op ∈ ops, op.IsWritable) ∧
      ∃ next, a.instruction "LdW" ops = (next, none) ∧ (a.emit "LdW (table-3.s,X),Y").2 = [] ∧
        a.ExtendAlike next (a.emit "LdW (table-3.s,X),Y").1 := by
  intro a ops
  have hm : ∃ f ∈ Form.all, f.hasMnemonic "LdW" = true := by decide +kernel
  have hname : IsReferable "table" := ⟨by decide, by decide, by decide, by decide⟩
  have hops : ∀ op ∈ ops, op.IsWritable := by
    rw [List.forall_mem_cons, List.forall_mem_singleton]
    constructor
    · refine ⟨by decide, rfl, ?_, by decide⟩
      intro v hv
      rw [← Option.some.inj hv]
      exact ⟨hname, by decide⟩
    · refine ⟨by decide, rfl, ?_, by decide⟩
      intro v hv
      cases hv
  have hselect : selectForm "LdW" ops .nowhere = .ok ⟨"ldw", [.shortOffX, .reg .y], 0xEF⟩ :=
    selectForm_eq_ok_iff.mpr (select_eq_ok_iff.mpr (by decide +kernel))
  have he : (⟨"ldw", [.shortOffX, .reg .y], 0xEF⟩ : Form).encode ops =
      .ok ⟨⟨[0xEF, 0xAA], by decide⟩, [⟨1, .abs8, "table", -3, .nowhere⟩], []⟩ := rfl
  obtain ⟨next, hnext⟩ : ∃ next, a.instruction "LdW" ops = (next, none) := by
    rw [instruction, hselect, withResult_ok, encodeForm, he, withResult_ok, proceed_none]
    exact ⟨_, rfl⟩
  have htext : "LdW" ++ " " ++ Operand.texts ops = "LdW (table-3.s,X),Y" := by decide +kernel
  obtain ⟨haccepted, -⟩ := emit_instruction a hm (by decide : ops.length ≤ maxOperands) hops
  rw [htext] at haccepted
  exact ⟨hm, by decide, hops, next, hnext, haccepted next hnext⟩

end Stm8
