import Stm8.Proofs.Form.Index
import Stm8.Proofs.Instruction.Decoded
import Stm8.Proofs.Instruction.Operands
import Stm8.Proofs.Line.Parsing
import Stm8.Proofs.Line.Source

/-!
# Lines of a disassembly

An instruction is written as a mnemonic, its operands, and a comment with the target of a
branch. Whatever names there are:

> `parse_display`: the line is parsed to the mnemonic and the operands.
-/

namespace Stm8

open Stm8.Text
open Line (IsWord IsOperand depthAfter? argumentText)

/-! ## Operands -/

/-- A plain text between signs whose brackets pair up can stand between commas. -/
theorem isOperand_of_signs {text front body behind : List Char} (depth : Nat)
    (htext : text = front ++ body ++ behind)
    (hsigns : ∀ c ∈ front ++ behind, isBlank c = false ∧ c ≠ ';')
    (hfront : depthAfter? 0 front = some depth) (hbehind : depthAfter? depth behind = some 0)
    (hplain : ∀ c ∈ body, isPlain c = true) (hne : body ≠ []) : IsOperand text := by
  subst htext
  rw [List.forall_mem_append] at hsigns
  constructor
  · intro hnil
    exact hne (List.append_eq_nil_iff.mp (List.append_eq_nil_iff.mp hnil).1).2
  · rw [List.forall_mem_append, List.forall_mem_append]
    exact ⟨⟨hsigns.1, fun c hc =>
      ⟨isBlank_of_isPlain (hplain c hc), ne_of_isPlain (hplain c hc) rfl⟩⟩, hsigns.2⟩
  · rw [Line.depthAfter?_append, Line.depthAfter?_append, hfront]
    show ((depthAfter? depth body).bind _) = _
    rw [Line.depthAfter?_plain hplain]
    exact hbehind

/-- The spelling of a category around a plain text can stand between commas. -/
theorem isOperand_spell (k : Operand.Kind) {body : String}
    (hplain : ∀ c ∈ body.toList, isPlain c = true) (hne : body.toList ≠ []) :
    IsOperand (k.spell body).toList := by
  have hsigns : ∀ front behind depth, (k.spell body).toList = front ++ body.toList ++ behind →
      (∀ c ∈ front ++ behind, isBlank c = false ∧ c ≠ ';') →
      depthAfter? 0 front = some depth → depthAfter? depth behind = some 0 →
      IsOperand (k.spell body).toList := fun front behind depth htext hsigns hfront hbehind =>
    isOperand_of_signs depth htext hsigns hfront hbehind hplain hne
  cases k with
  | immediate => exact hsigns ['#'] [] 0 (by simp [Operand.Kind.spell]) (by decide) rfl rfl
  | directMemory => exact hsigns [] [] 0 (by simp [Operand.Kind.spell]) (by decide) rfl rfl
  | shortDirectMemory =>
    exact hsigns [] ".s".toList 0 (by simp [Operand.Kind.spell]) (by decide) rfl rfl
  | offsetX => exact hsigns ['('] ",X)".toList 1 (by simp [Operand.Kind.spell]) (by decide) rfl rfl
  | offsetY => exact hsigns ['('] ",Y)".toList 1 (by simp [Operand.Kind.spell]) (by decide) rfl rfl
  | offsetSp =>
    exact hsigns ['('] ",SP)".toList 1 (by simp [Operand.Kind.spell]) (by decide) rfl rfl
  | pointerNear => exact hsigns ['['] [']'] 1 (by simp [Operand.Kind.spell]) (by decide) rfl rfl
  | pointerNearX =>
    exact hsigns "([".toList "],X)".toList 2 (by simp [Operand.Kind.spell]) (by decide) rfl rfl
  | pointerNearY =>
    exact hsigns "([".toList "],Y)".toList 2 (by simp [Operand.Kind.spell]) (by decide) rfl rfl
  | pointerFar =>
    exact hsigns ['['] ".e]".toList 1 (by simp [Operand.Kind.spell]) (by decide) rfl rfl
  | pointerFarX =>
    exact hsigns "([".toList ".e],X)".toList 2 (by simp [Operand.Kind.spell]) (by decide) rfl rfl
  | pointerFarY =>
    exact hsigns "([".toList ".e],Y)".toList 2 (by simp [Operand.Kind.spell]) (by decide) rfl rfl
  | indexedX =>
    show IsOperand "(X)".toList
    exact ⟨by decide, by decide, rfl⟩
  | indexedY =>
    show IsOperand "(Y)".toList
    exact ⟨by decide, by decide, rfl⟩
  | register r =>
    show IsOperand r.name.toList
    cases r <;> exact ⟨by decide, by decide, rfl⟩
  | illegal =>
    show IsOperand "?".toList
    exact ⟨by decide, by decide, rfl⟩

theorem Value.IsSpelledBy.ne_nil {v : Value} {body : List Char} (h : v.IsSpelledBy body) :
    body ≠ [] := by
  rintro rfl
  cases h.value

theorem isPlain_ending :
    ∀ m ∈ Mode.all, ∀ named, ∀ c ∈ (m.ending named).toList, isPlain c = true := by
  decide

/-- The text of a slot can stand between commas. -/
theorem isOperand_operandText (m : Mode) {field : Nat} (hfield : field < 2 ^ 24)
    {name : Option String} (hname : ∀ n, name = some n → IsReferable n) :
    IsOperand (m.operandText field name).toList := by
  have hbody := Mode.isSpelledBy_field hfield (2 * m.width) hname
  -- a number or its name, with the ending of the mode
  have hfieldText : IsOperand (m.kind.spell
      (name.getD ("0x" ++ hex (2 * m.width) field) ++ m.ending name.isSome)).toList := by
    refine isOperand_spell _ (fun c hc => ?_) ?_
    · rw [String.toList_append, List.mem_append] at hc
      rcases hc with hc | hc
      · exact hbody.plain c hc
      · exact isPlain_ending m (m.mem_all) name.isSome c hc
    · rw [String.toList_append]
      exact List.append_ne_nil_of_left_ne_nil hbody.ne_nil _
  cases m with
  | bit n =>
    have hdigits : ∀ n : Fin 8, (decimal n.val).toList ≠ [] ∧
        ∀ c ∈ (decimal n.val).toList, isPlain c = true := by decide
    exact isOperand_spell _ (hdigits n).2 (hdigits n).1
  | relative =>
    have hspelled := isSpelledBy_displacement (Mode.natAbs_readSigned (UInt8.ofNat field))
    exact isOperand_spell _ hspelled.plain hspelled.ne_nil
  | _ => exact hfieldText

/-! ## Mnemonics and comments -/

/-- Mnemonics are words, and no directives. -/
theorem Form.Family.isWord_mnemonic :
    ∀ family ∈ Form.families, family.mnemonic.toList ≠ [] ∧
      (∀ c ∈ family.mnemonic.toList, isPlain c = true) ∧
      family.mnemonic.toList.head? ≠ some '.' := by
  decide +kernel

/-- No form has more operands than a line can have. -/
theorem Form.length_modes_le : ∀ f ∈ Form.all, f.modes.length ≤ maxOperands := by
  decide +kernel

theorem ne_break_of_isPlain {c : Char} (h : isPlain c = true) : c ≠ '\n' ∧ c ≠ '\r' :=
  ⟨ne_of_isPlain h rfl, ne_of_isPlain h rfl⟩

theorem ne_break_of_not_isBlank {c : Char} (h : isBlank c = false) : c ≠ '\n' ∧ c ≠ '\r' := by
  constructor
  all_goals
    rintro rfl
    cases h

/-- A comment begins behind one blank, and goes up to the end of the line. -/
theorem remark_cases (i : Instruction) {names : Names}
    (hnames : ∀ a n, names a = some n → IsReferable n) :
    (i.remark names).toList = [] ∨
      ∃ rest, (i.remark names).toList = ' ' :: ';' :: rest ∧ ∀ c ∈ rest, c ≠ '\n' ∧ c ≠ '\r' := by
  unfold Instruction.remark
  cases i.target? with
  | some target =>
    have hnumber : ∀ c ∈ ("0x" ++ hex 4 target.toNat).toList, c ≠ '\n' ∧ c ≠ '\r' :=
      fun c hc => ne_break_of_isPlain (Number.isPlain_of_mem_hex hc)
    cases hname : names target with
    | none =>
      refine Or.inr ⟨' ' :: ("0x" ++ hex 4 target.toNat).toList, by simp [hname], ?_⟩
      rw [List.forall_mem_cons]
      exact ⟨by decide, hnumber⟩
    | some name =>
      refine Or.inr ⟨' ' :: ("0x" ++ hex 4 target.toNat).toList ++
        (" <".toList ++ name.toList ++ ['>']), by simp [hname], ?_⟩
      rw [List.forall_mem_append, List.forall_mem_append, List.forall_mem_append,
        List.forall_mem_cons]
      exact ⟨⟨by decide, hnumber⟩, ⟨by decide, fun c hc => ne_break_of_isPlain
        (isPlain_of_isSymbolName (hnames target name hname).symbol hc).1⟩, by decide⟩
  | none =>
    dsimp only
    split
    · exact Or.inr ⟨" truncated".toList, rfl, by decide⟩
    · split
      · exact Or.inr ⟨" unknown".toList, rfl, by decide⟩
      · exact Or.inl rfl

/-! ## Whole lines -/

/-- The text of a command with operands. -/
theorem toList_display (i : Instruction) (names : Names) :
    (i.display names).toList =
      i.mnemonic.toList ++ argumentText ((i.operands names).map String.toList) ++
        (i.remark names).toList := by
  unfold Instruction.display Instruction.text argumentText
  cases i.operands names with
  | nil => simp
  | cons first operands => simp [String.toList_intercalate]

/-- A command with a comment in which there are no line breaks is one line. -/
theorem isLine_of_command {name remark : List Char} {texts : List (List Char)}
    (hname : IsWord name) (htexts : ∀ o ∈ texts, IsOperand o)
    (hremark : ∀ c ∈ remark, c ≠ '\n' ∧ c ≠ '\r') :
    Assembler.IsLine (name ++ argumentText texts ++ remark) := by
  constructor
  · intro hnil
    exact hname.nonempty (List.append_eq_nil_iff.mp (List.append_eq_nil_iff.mp hnil).1).1
  · rw [List.forall_mem_append, List.forall_mem_append]
    refine ⟨⟨fun c hc => ne_break_of_isPlain (hname.plain c hc), fun c hc => ?_⟩, hremark⟩
    unfold argumentText at hc
    split at hc
    · cases hc
    · rcases List.mem_cons.mp hc with rfl | hc
      · decide
      · rcases Line.mem_of_mem_intercalate hc with rfl | ⟨o, ho, hc⟩
        · decide
        · exact ne_break_of_not_isBlank ((htexts o ho).solid c hc).1

/-- A line with a word, operands and a comment is parsed to the word and the operands. -/
theorem parse_display_of {i : Instruction} {names : Names}
    (hnames : ∀ a n, names a = some n → IsReferable n) (hmnemonic : IsWord i.mnemonic.toList)
    (hoperands : ∀ o ∈ i.operands names, IsOperand o.toList)
    (hcount : (i.operands names).length ≤ maxOperands) :
    Assembler.IsLine (i.display names).toList ∧
      ∀ number offset, ∃ command,
        Line.parse (i.display names).toList number offset = .ok ⟨[], some command⟩ ∧
        command.name.text = i.mnemonic ∧
        command.operands.map Part.text = i.operands names := by
  -- operands, comment and line breaks are told apart by their characters only
  have hops : ∀ o ∈ (i.operands names).map String.toList, IsOperand o := by
    rw [List.forall_mem_map]
    exact hoperands
  have hremark := remark_cases i hnames
  rw [toList_display]
  refine ⟨isLine_of_command hmnemonic hops ?_, fun number offset => ?_⟩
  · rcases hremark with hnil | ⟨rest, hrest, hsolid⟩
    · rw [hnil]
      simp
    · rw [hrest, List.forall_mem_cons, List.forall_mem_cons]
      exact ⟨by decide, by decide, hsolid⟩
  · have hbehind : ∀ c ∈ (i.remark names).toList.takeWhile (· != ';'), isBlank c = true := by
      rcases hremark with hnil | ⟨rest, hrest, -⟩
      · rw [hnil]
        simp
      · rw [hrest]
        exact fun c hc => by
          obtain rfl := List.mem_singleton.mp hc
          rfl
    obtain ⟨command, hparse, hname, htexts⟩ := Line.parse_line hmnemonic hops
      (by rw [List.length_map]; exact hcount) rfl hbehind number offset
    refine ⟨command, hparse, ?_, ?_⟩
    · rw [hname, String.ofList_toList]
    · rw [htexts, List.map_map]
      simp

/-- A line with an instruction is parsed to its mnemonic and its operands. -/
theorem parse_display {i : Instruction} {f : Form} {fields : List Nat}
    (hmade : i.IsMadeOf f fields) (hi : i.content = .known f fields) {names : Names}
    (hnames : ∀ a n, names a = some n → IsReferable n) :
    Assembler.IsLine (i.display names).toList ∧
      ∀ number offset, ∃ command,
        Line.parse (i.display names).toList number offset = .ok ⟨[], some command⟩ ∧
        command.name.text = f.mnemonic ∧
        command.operands.map Part.text = i.operands names := by
  have hf : f ∈ Form.all := (Form.mem_of_withOpcode? hmade.first).1
  have hmnemonic : i.mnemonic = f.mnemonic := by rw [Instruction.mnemonic, hi]
  have hslots : i.slots = f.modes.zip fields := by rw [Instruction.slots, hi]
  have hoperands : i.operands names = (f.modes.zip fields).map fun s =>
      s.1.operandText s.2 (if s.1.isAbsolute then names (UInt32.ofNat s.2) else none) := by
    rw [Instruction.operands, hi, hslots]
  obtain ⟨family, hfamily, hmem⟩ := Form.mem_all_iff.mp hf
  obtain ⟨hne, hplain, -⟩ := Form.Family.isWord_mnemonic family hfamily
  rw [← Form.Family.mnemonic_eq hmem, ← hmnemonic] at hne hplain
  rw [← hmnemonic]
  refine parse_display_of hnames ⟨hne, hplain⟩ ?_ ?_
  · rw [hoperands, List.forall_mem_map]
    intro s hs
    have hwidth : 256 ^ s.1.width ≤ 256 ^ 3 := Nat.pow_le_pow_right (by decide) s.1.width_le
    refine isOperand_operandText s.1 (Nat.lt_of_lt_of_le (hmade.fits s hs) hwidth) fun n hn => ?_
    split at hn
    · exact hnames _ n hn
    · cases hn
  · rw [hoperands, List.length_map, List.length_zip]
    exact Nat.le_trans (Nat.min_le_left ..) (Form.length_modes_le f hf)

/-- A line with the opcode of no form is parsed to a directive with the bytes as its
value. -/
theorem parse_display_unknown {i : Instruction} (hi : i.content = .unknown) {names : Names}
    (hnames : ∀ a n, names a = some n → IsReferable n) :
    Assembler.IsLine (i.display names).toList ∧
      ∀ number offset, ∃ command,
        Line.parse (i.display names).toList number offset = .ok ⟨[], some command⟩ ∧
        command.name.text = (if i.size = 2 then ".word" else ".byte") ∧
        command.operands.map Part.text = ["0x" ++ hex (2 * i.size) i.opcode.toNat] := by
  have hmnemonic : i.mnemonic = if i.size = 2 then ".word" else ".byte" := by
    rw [Instruction.mnemonic, hi]
  have hoperands : i.operands names = ["0x" ++ hex (2 * i.size) i.opcode.toNat] := by
    rw [Instruction.operands, hi]
  rw [← hmnemonic, ← hoperands]
  refine parse_display_of hnames ?_ ?_ ?_
  · rw [hmnemonic]
    split <;> exact ⟨by decide, by decide⟩
  · rw [hoperands, List.forall_mem_singleton]
    refine isOperand_spell .directMemory (fun c hc => Number.isPlain_of_mem_hex hc) ?_
    rw [String.toList_append]
    exact List.append_ne_nil_of_left_ne_nil (by decide) _
  · rw [hoperands]
    exact Nat.le_add_left 1 2

end Stm8
