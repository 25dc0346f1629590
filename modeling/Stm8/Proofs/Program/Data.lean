import Stm8.Proofs.Program.Reassembly
import Stm8.Proofs.Sweep.Partition

/-!
# Data in a disassembly

Bytes that are no instruction are written as a directive: an opcode that no form has as
one byte or one word, and an instruction that is cut off byte by byte. A line may have as
many operands as an instruction (`maxOperands`), and directives are no exception. A sweep
can end with one byte more than that:

> `assemble_data`: data of a disassembly is assembled to its bytes if there are no more
> than three; a longer one has four bytes and is rejected.
-/

namespace Stm8

open Stm8.Text
open Assembler (IsLine splitLines withoutBreak)
open Line (IsWord IsOperand argumentText)

/-! ## One line -/

section

variable {source : String} {base : UInt32} {externals : List (String × UInt32)}

/-- A line that becomes these bytes wherever it stands is assembled to them. -/
theorem assemble_line {bytes : List UInt8} (hline : IsLine source.toList) {entry : Entry}
    (hparse : Line.parse source.toList 1 0 = .ok entry.1)
    (hentry : entry.Yields base
      (fun name => (lastExternal? externals name).map fun v => (v.toNat : Int)) bytes) :
    assemble source base externals = .ok bytes := by
  have hlines : Line.parseAll 0 0 (splitLines source.toList) = .ok ([entry].map (·.1)) := by
    rw [Assembler.splitLines_of_isLine hline, Line.parseAll,
      Assembler.withoutBreak_eq_self hline.solid, hparse]
    rfl
  have hassembly := @isAssembly_of_yields base externals [(⟨0, bytes, .unknown⟩, entry)]
    (List.forall_mem_singleton.mpr hentry)
  rw [List.map_singleton, List.map_singleton, List.flatten_singleton] at hassembly
  exact assemble_of_isAssembly hlines (List.forall_mem_singleton.mpr hentry.labels) hassembly

/-- A line that cannot be parsed is all that is reported. -/
theorem assemble_of_parse_error {problem : Problem} (hline : IsLine source.toList)
    (hparse : Line.parse source.toList 1 0 = .error problem) :
    assemble source base externals = .error (.one problem) := by
  obtain ⟨known, hempty, -⟩ := Assembler.empty_spec base externals
  have hproblems : ((Assembler.empty base externals).emit source).2 = [problem] := by
    rw [hempty, Assembler.emit, Assembler.splitLines_of_isLine hline]
    show (Assembler.statement _ (withoutBreak source.toList) 1 0).2.toList ++ [] = _
    rw [Assembler.withoutBreak_eq_self hline.solid, Assembler.statement, hparse]
    rfl
  show (((Assembler.empty base externals).emit source).1.finish >>= _) = _
  rw [Assembler.finish, rejections_emit, hproblems]
  rfl

end

/-! ## Directives -/

/-- The directive for cells of one byte or of two. -/
def cellDirective (width : Nat) : String :=
  if width = 2 then ".word" else ".byte"

/-- A cell as it is written. -/
def cellText (width : Nat) (bytes : List UInt8) : String :=
  "0x" ++ hex (2 * width) (readBigEndian bytes)

theorem isWord_cellDirective (width : Nat) : IsWord (cellDirective width).toList := by
  unfold cellDirective
  split <;> exact ⟨by decide, by decide⟩

theorem isOperand_cellText (width : Nat) (bytes : List UInt8) :
    IsOperand (cellText width bytes).toList := by
  show IsOperand ("0x" ++ hex (2 * width) (readBigEndian bytes)).toList
  refine isOperand_spell .directMemory (fun c hc => Number.isPlain_of_mem_hex hc) ?_
  rw [String.toList_append]
  exact List.append_ne_nil_of_left_ne_nil (by decide) _

/-- A directive with cells of one width, and a comment behind it, is assembled to its
cells. It is rejected if there are more than an instruction has operands. -/
theorem assemble_cells {width : Nat} (hwidth : width = 1 ∨ width = 2)
    {cells : List (List UInt8)} (hne : cells ≠ [])
    (hcells : ∀ bytes ∈ cells, bytes.length = width) {source : String} {remark : List Char}
    (hsource : source.toList = (cellDirective width).toList ++
      argumentText (cells.map fun bytes => (cellText width bytes).toList) ++ remark)
    (hsolid : ∀ c ∈ remark, c ≠ '\n' ∧ c ≠ '\r')
    (hremark : ∀ c ∈ remark.takeWhile (· != ';'), isBlank c = true)
    (base : UInt32) (externals : List (String × UInt32)) :
    (cells.length ≤ maxOperands → assemble source base externals = .ok cells.flatten) ∧
      (maxOperands < cells.length → ∃ span,
        assemble source base externals =
          .error (.one (.malformed (.tooManyOperands cells.length) span))) := by
  have hword := isWord_cellDirective width
  have hops : ∀ o ∈ cells.map fun bytes => (cellText width bytes).toList, IsOperand o := by
    rw [List.forall_mem_map]
    exact fun bytes _ => isOperand_cellText width bytes
  have hline : IsLine source.toList := by
    rw [hsource]
    exact isLine_of_command hword hops hsolid
  have hcount : (cells.map fun bytes => (cellText width bytes).toList).length = cells.length :=
    List.length_map _
  constructor
  · intro hfew
    obtain ⟨command, hparse, hname, htexts⟩ :=
      Line.parse_line hword hops (hcount ▸ hfew) rfl hremark 1 0
    rw [← hsource] at hparse
    rw [String.ofList_toList] at hname
    rw [List.map_map] at htexts
    have hoperands : command.operands.map Part.text =
        cells.map fun bytes => "0x" ++ hex (2 * width) (readBigEndian bytes) := by
      rw [htexts]
      refine List.map_congr_left fun bytes _ => ?_
      rw [Function.comp_apply, String.ofList_toList, cellText]
    obtain ⟨piece, hpiece⟩ := yields_of_cells hwidth hne hcells hname hoperands
    exact assemble_line hline hparse hpiece
  · intro hmany
    obtain ⟨span, hparse⟩ := Line.parse_too_many hword hops (hcount ▸ hmany) rfl hremark 1 0
    rw [← hsource, hcount] at hparse
    exact ⟨span, assemble_of_parse_error hline hparse⟩

/-! ## Items of a sweep -/

/-- What the data of an item consists of, and how it is written. -/
structure Instruction.IsData (i : Instruction) (width : Nat) (cells : List (List UInt8)) :
    Prop where
  /-- The cells are bytes or words. -/
  narrow : width = 1 ∨ width = 2
  /-- There is at least one. -/
  nonempty : cells ≠ []
  /-- All have this width. -/
  uniform : ∀ bytes ∈ cells, bytes.length = width
  /-- They are the bytes of the item. -/
  bytes : i.bytes = cells.flatten
  /-- The mnemonic is their directive. -/
  mnemonic : i.mnemonic = cellDirective width
  /-- The operands are the cells. -/
  operands : ∀ names, i.operands names = cells.map (cellText width)
  /-- Only cells of one byte are more than one. -/
  count : (cells.length = 1 ∧ i.size = width) ∨ (width = 1 ∧ i.size = cells.length)

/-- Items that are no instructions are data. -/
theorem exists_isData {base : UInt32} {bytes : List UInt8} {i : Instruction}
    (hi : i ∈ sweep base bytes) (hdata : i.isUnknown = true) :
    i.size ≤ 4 ∧ ∃ width cells, i.IsData width cells := by
  obtain ⟨hne, ⟨source, hdecode⟩ | ⟨htail, hcut⟩⟩ := mem_sweep_cases hi
  · have hunknown : i.content = .unknown := by
      unfold Instruction.isUnknown Instruction.form? at hdata
      cases hcontent : i.content with
      | known f fields =>
        rw [hcontent] at hdata
        cases hdata
      | unknown => rfl
      | truncated => exact absurd hcontent (content_of_decode hdecode).1
    have hsize : i.size = 1 ∨ i.size = 2 := (content_of_decode hdecode).2 hunknown
    have hkey : i.opcode.toNat = readBigEndian i.bytes := by
      rw [Instruction.opcode, hunknown]
      exact toNat_opcodeKey hsize
    refine ⟨by omega, i.size, [i.bytes], hsize, List.cons_ne_nil _ _, ?_,
      List.flatten_singleton.symm, ?_, fun names => ?_, Or.inl ⟨rfl, rfl⟩⟩
    · exact List.forall_mem_singleton.mpr rfl
    · rw [Instruction.mnemonic, hunknown]
      rfl
    · rw [Instruction.operands, hunknown, List.map_singleton, cellText, ← hkey]
  · refine ⟨length_of_isCutOff hcut, 1, i.bytes.map fun b => [b], Or.inl rfl, ?_, ?_, ?_, ?_,
      ?_, Or.inr ⟨rfl, (List.length_map _).symm⟩⟩
    · exact fun hnil => hne (List.map_eq_nil_iff.mp hnil)
    · exact List.forall_mem_map.mpr fun b _ => rfl
    · rw [← List.flatMap_def, List.flatMap_singleton']
    · rw [htail]
      rfl
    · intro names
      rw [htail]
      show i.bytes.map (fun b => "0x" ++ hex 2 b.toNat) = (i.bytes.map fun b => [b]).map _
      rw [List.map_map]
      refine List.map_congr_left fun b _ => ?_
      simp [cellText, readBigEndian]

/-- Behind data the comment says what they are. -/
theorem remark_of_isUnknown {i : Instruction} (hdata : i.isUnknown = true) (names : Names) :
    (i.remark names).toList = " ; truncated".toList ∨
      (i.remark names).toList = " ; unknown".toList := by
  have htarget : i.target? = none := by
    unfold Instruction.isUnknown Instruction.form? at hdata
    unfold Instruction.target? Instruction.slots
    cases hcontent : i.content with
    | known f fields =>
      rw [hcontent] at hdata
      cases hdata
    | unknown => rfl
    | truncated => rfl
  unfold Instruction.remark
  rw [htarget, hdata]
  dsimp only
  split
  · exact Or.inl rfl
  · exact Or.inr rfl

/-- **Data of a disassembly, with or without its comment, is assembled to its bytes if
there are no more than three.** There can be four, which is more operands than a line may
have. -/
theorem assemble_data {base : UInt32} {bytes : List UInt8} {i : Instruction}
    (hi : i ∈ sweep base bytes) (hdata : i.isUnknown = true) (names : Names) {source : String}
    (hsource : source = i.text names ∨ source = i.display names) (address : UInt32)
    (externals : List (String × UInt32)) :
    (i.size ≤ 3 ∧ assemble source address externals = .ok i.bytes) ∨
      (i.size = 4 ∧ ∃ span, assemble source address externals =
        .error (.one (.malformed (.tooManyOperands 4) span))) := by
  obtain ⟨hsize, width, cells, hcells⟩ := exists_isData hi hdata
  have hoperands : (i.operands names).map String.toList =
      cells.map fun bytes => (cellText width bytes).toList := by
    rw [hcells.operands, List.map_map]
    rfl
  -- with or without the comment, the line is the directive
  have hline : ∃ remark : List Char, source.toList = (cellDirective width).toList ++
        argumentText (cells.map fun bytes => (cellText width bytes).toList) ++ remark ∧
      (∀ c ∈ remark, c ≠ '\n' ∧ c ≠ '\r') ∧
      ∀ c ∈ remark.takeWhile (· != ';'), isBlank c = true := by
    have htext := toList_display i names
    rw [hoperands, hcells.mnemonic] at htext
    rcases hsource with rfl | rfl
    · rw [Instruction.display, String.toList_append, List.append_cancel_right_eq] at htext
      exact ⟨[], by rw [htext, List.append_nil], by simp, by simp⟩
    · refine ⟨_, htext, ?_⟩
      rcases remark_of_isUnknown hdata names with hremark | hremark
      · rw [hremark]
        decide
      · rw [hremark]
        decide
  obtain ⟨remark, htext, hsolid, hblank⟩ := hline
  obtain ⟨hfew, hmany⟩ := assemble_cells hcells.narrow hcells.nonempty hcells.uniform htext
    hsolid hblank address externals
  have hlimit : maxOperands = 3 := rfl
  rcases Nat.lt_or_ge maxOperands cells.length with hlong | hshort
  · have hfour : cells.length = 4 ∧ i.size = 4 := by
      rcases hcells.count with ⟨hone, -⟩ | ⟨-, hcount⟩ <;> omega
    rw [hfour.1] at hmany
    exact Or.inr ⟨hfour.2, hmany (by decide)⟩
  · have hthree : i.size ≤ 3 := by
      have hnarrow := hcells.narrow
      rcases hcells.count with ⟨-, hcount⟩ | ⟨-, hcount⟩ <;> omega
    rw [hcells.bytes]
    exact Or.inl ⟨hthree, hfew hshort⟩

/-- Four bytes of a bit test with a jump are rejected at the fourth operand. -/
theorem assemble_data_btjt :
    ∃ span, assemble ".byte 0x72,0x00,0x12,0x34 ; truncated" 0x8000 =
      .error (.one (.malformed (.tooManyOperands 4) span)) := by
  have hmem : Instruction.ofTail 0x8000 [0x72, 0x00, 0x12, 0x34] ∈
      sweep 0x8000 [0x72, 0x00, 0x12, 0x34] := by
    rw [sweep_cutOff_btjt]
    exact List.mem_singleton_self _
  have htext : ".byte 0x72,0x00,0x12,0x34 ; truncated" =
      (Instruction.ofTail 0x8000 [0x72, 0x00, 0x12, 0x34]).display fun _ => none := by
    decide
  rcases assemble_data hmem rfl _ (Or.inr htext) 0x8000 [] with ⟨hsize, -⟩ | ⟨-, hrejected⟩
  · exact absurd hsize (by decide)
  · exact hrejected

/-- Not all data of a disassembly can be assembled. -/
theorem not_assemble_data_cutOff :
    ¬ ∀ (base : UInt32) (bytes : List UInt8) (i : Instruction) (names : Names),
      i ∈ sweep base bytes → i.isUnknown = true → assemble (i.text names) base = .ok i.bytes := by
  intro h
  have hmem : Instruction.ofTail 0 [0x72, 0x00, 0x12, 0x34] ∈
      sweep 0 [0x72, 0x00, 0x12, 0x34] := by
    rw [sweep_cutOff_btjt]
    exact List.mem_singleton_self _
  have hok := h 0 _ _ (fun _ => none) hmem rfl
  have hnone : (assemble ((Instruction.ofTail 0 [0x72, 0x00, 0x12, 0x34]).text fun _ => none)
      0).toOption = none := by
    decide +kernel
  rw [hok] at hnone
  cases hnone

end Stm8
