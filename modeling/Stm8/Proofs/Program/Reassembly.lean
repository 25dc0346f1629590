import Stm8.Proofs.Instruction.Display
import Stm8.Proofs.Instruction.Named
import Stm8.Proofs.Program.Chunks
import Stm8.Proofs.Sweep

/-!
# A disassembly is a source text

Every line of a disassembly is assembled to the bytes that it was written for, wherever it
stands: an instruction is encoded again, and data is put down by a directive. So the lines
of a sweep are assembled to the bytes that were swept:

> `yields_display`: the line of a decoded instruction has a piece that becomes its bytes.
> `assemble_sweep`: the lines of a sweep are assembled to the bytes.
-/

namespace Stm8

open Relocation (patch)
open Stm8.Text
open Assembler (IsLine)

/-- Whether the entry is a line without labels, and its piece becomes these bytes wherever
it stands. -/
structure Entry.Yields (base : UInt32) (value? : String → Option Int) (bytes : List UInt8)
    (entry : Entry) : Prop where
  labels : entry.1.labels = []
  piece : Piece.ofLine entry.1 = .ok entry.2
  diagnostics : entry.2.diagnostics = []
  numbers : ∀ offset, ∀ r ∈ entry.2.relocations,
    ((r.shift offset).number? base value?).isSome = true
  bytes : ∀ offset, patch base value? offset entry.2.relocations entry.2.code = bytes

/-! ## Data -/

/-- The directives for one byte and for two bytes. -/
theorem exists_cell {c : Command} {width : Nat} (hwidth : width = 1 ∨ width = 2)
    (hname : c.name.text = if width = 2 then ".word" else ".byte") :
    c.isDirective = true ∧ ∃ cell, Cell.named? c.name.text = some cell ∧ cell.size = width ∧
      cell.range.1 ≤ 0 ∧ cell.range.2 = 256 ^ width - 1 := by
  unfold Command.isDirective
  rw [hname]
  rcases hwidth with rfl | rfl
  · exact ⟨by decide, .byte, by decide, rfl, by decide, rfl⟩
  · exact ⟨by decide, .word, by decide, rfl, by decide, rfl⟩

/-- Constants that the cells can hold are put down one behind the other. -/
theorem exists_readValues {cell : Cell} {parts : List Part} {vs : List Int}
    (hvalues : parts.map (fun p => Value.parse? p.text.toList) = vs.map fun v => some (.const v))
    (hrange : ∀ v ∈ vs, cell.range.1 ≤ v ∧ v ≤ cell.range.2) :
    ∃ values, Cell.readValues parts = .ok values ∧
      Piece.ofCells cell values = { code := (vs.map (bigEndian cell.size)).flatten } := by
  induction vs generalizing parts with
  | nil =>
    obtain rfl := List.map_eq_nil_iff.mp hvalues
    exact ⟨[], rfl, rfl⟩
  | cons v vs ih =>
    obtain ⟨p, ps, rfl, hp, hps⟩ := List.map_eq_cons_iff.mp hvalues
    rw [List.forall_mem_cons] at hrange
    obtain ⟨⟨hleast, hgreatest⟩, hrange⟩ := hrange
    obtain ⟨values, hread, hcells⟩ := ih hps hrange
    refine ⟨(.const v, p.span) :: values, ?_, ?_⟩
    · rw [Cell.readValues, hp, hread]
      rfl
    · show Piece.append (Piece.ofCell cell (.const v) p.span) (Piece.ofCells cell values) = _
      rw [hcells, Piece.ofCell, decide_eq_false (Int.not_lt.mpr hleast),
        decide_eq_false (Int.not_lt.mpr hgreatest)]
      simp [Piece.append]

/-- Data is put down as it was, in cells of one byte or of two. -/
theorem yields_of_cells {base : UInt32} {value? : String → Option Int} {width : Nat}
    (hwidth : width = 1 ∨ width = 2) {cells : List (List UInt8)} (hne : cells ≠ [])
    (hcells : ∀ bytes ∈ cells, bytes.length = width) {c : Command}
    (hname : c.name.text = if width = 2 then ".word" else ".byte")
    (hoperands : c.operands.map Part.text =
      cells.map fun bytes => "0x" ++ hex (2 * width) (readBigEndian bytes)) :
    ∃ piece, Entry.Yields base value? cells.flatten (⟨[], some c⟩, piece) := by
  obtain ⟨hdirective, cell, hcell, hsize, hleast, hgreatest⟩ := exists_cell hwidth hname
  have hbound : 256 ^ width ≤ 256 ^ 2 := Nat.pow_le_pow_right (by decide) (by omega)
  have hlt : ∀ bytes ∈ cells, readBigEndian bytes < 256 ^ width :=
    fun bytes hbytes => readBigEndian_lt (hcells bytes hbytes)
  -- each operand is the number of its cell, in hexadecimal
  have hvalues : c.operands.map (fun p => Value.parse? p.text.toList) =
      (cells.map fun bytes => (readBigEndian bytes : Int)).map fun v => some (.const v) := by
    have hparse : c.operands.map (fun p => Value.parse? p.text.toList) =
        (c.operands.map Part.text).map fun text => Value.parse? text.toList := by
      rw [List.map_map]
      rfl
    rw [hparse, hoperands, List.map_map, List.map_map]
    refine List.map_congr_left fun bytes hbytes => ?_
    have hfits : (readBigEndian bytes : Int) ≤ Quantity.greatest := by
      have hsmall := hlt bytes hbytes
      unfold Quantity.greatest
      omega
    rw [Function.comp_apply, Function.comp_apply]
    exact (isSpelledBy_hex hfits _).value
  have hrange : ∀ v ∈ cells.map fun bytes => (readBigEndian bytes : Int),
      cell.range.1 ≤ v ∧ v ≤ cell.range.2 := by
    rw [List.forall_mem_map]
    intro bytes hbytes
    have hinside := hlt bytes hbytes
    rw [← Int.ofNat_lt, Int.natCast_pow] at hinside
    rw [hgreatest]
    exact ⟨by omega, Int.le_sub_one_of_lt hinside⟩
  have hcode : ((cells.map fun bytes => (readBigEndian bytes : Int)).map
      (bigEndian cell.size)).flatten = cells.flatten := by
    have hsame : cells.map (bigEndian cell.size ∘ fun bytes => (readBigEndian bytes : Int)) =
        cells.map id := by
      refine List.map_congr_left fun bytes hbytes => ?_
      rw [Function.comp_apply, hsize, bigEndian_readBigEndian (hcells bytes hbytes), id]
    rw [List.map_map, hsame, List.map_id]
  obtain ⟨values, hread, hpiece⟩ := exists_readValues hvalues hrange
  have hsome : c.operands.isEmpty = false := by
    rw [Bool.eq_false_iff]
    intro hempty
    rw [List.isEmpty_iff.mp hempty] at hoperands
    exact hne (List.map_eq_nil_iff.mp hoperands.symm)
  refine ⟨{ code := cells.flatten }, rfl, ?_, rfl, ?_, fun _ => rfl⟩
  · show Piece.ofCommand c = _
    rw [Piece.ofCommand, if_pos hdirective, Piece.ofDirective, hcell]
    dsimp only
    rw [hsome, if_neg Bool.false_ne_true, hread, ← hcode, ← hpiece]
    rfl
  · intro offset r hr
    cases hr

/-- The key of an opcode is the number that its bytes form. -/
theorem toNat_opcodeKey {bytes : List UInt8} (hlength : bytes.length = 1 ∨ bytes.length = 2) :
    (opcodeKey bytes).toNat = readBigEndian bytes := by
  have hlt : readBigEndian bytes < 256 ^ bytes.length := readBigEndian_lt rfl
  have hbound : 256 ^ bytes.length ≤ 256 ^ 2 := Nat.pow_le_pow_right (by decide) (by omega)
  rw [opcodeKey, UInt16.toNat_ofNat']
  exact Nat.mod_eq_of_lt (Nat.lt_of_lt_of_le hlt hbound)

/-- The opcode of no form is put down as it was. -/
theorem yields_of_data {base : UInt32} {value? : String → Option Int} {bytes : List UInt8}
    (hlength : bytes.length = 1 ∨ bytes.length = 2) {c : Command}
    (hname : c.name.text = if bytes.length = 2 then ".word" else ".byte")
    (hoperands : c.operands.map Part.text =
      ["0x" ++ hex (2 * bytes.length) (opcodeKey bytes).toNat]) :
    ∃ piece, Entry.Yields base value? bytes (⟨[], some c⟩, piece) := by
  rw [toNat_opcodeKey hlength] at hoperands
  have hcell : ∃ piece, Entry.Yields base value? [bytes].flatten (⟨[], some c⟩, piece) :=
    yields_of_cells hlength (List.cons_ne_nil bytes []) (by simp) hname hoperands
  rw [List.flatten_singleton] at hcell
  exact hcell

/-! ## Instructions -/

section

variable {base : UInt32} {value? : String → Option Int} {names : Names}

/-- The line of a form with its operands is no directive. -/
theorem isDirective_of_mnemonic {c : Command} {f : Form} (hf : f ∈ Form.all)
    (hname : c.name.text = f.mnemonic) : c.isDirective = false := by
  obtain ⟨family, hfamily, hmem⟩ := Form.mem_all_iff.mp hf
  have hhead := (Form.Family.isWord_mnemonic family hfamily).2.2
  rw [← Form.Family.mnemonic_eq hmem, ← hname] at hhead
  exact beq_eq_false_iff_ne.mpr hhead

/-- An instruction is encoded again. -/
theorem yields_of_known {i : Instruction} {f : Form} {fields : List Nat}
    (hmade : i.IsMadeOf f fields) (hi : i.content = .known f fields)
    (hnames : ∀ a n, names a = some n → IsReferable n ∧ value? n = some (a.toNat : Int))
    (hlong : ∀ s ∈ i.slots, s.1.short?.isSome = true → s.2 < 0x100 →
      (names (UInt32.ofNat s.2)).isSome = true)
    {c : Command} (hname : c.name.text = f.mnemonic)
    (hoperands : c.operands.map Part.text = i.operands names) :
    ∃ piece, Entry.Yields base value? i.bytes (⟨[], some c⟩, piece) := by
  have hf : f ∈ Form.all := (Form.mem_of_withOpcode? hmade.first).1
  obtain ⟨ops, g, e, hops, hg, he, hnotes, hpatch⟩ :=
    exists_encode_named hmade hi hnames hlong hoperands
  refine ⟨Piece.ofEncoding e, rfl, ?_, hnotes, fun offset => (hpatch base offset).1,
    fun offset => (hpatch base offset).2⟩
  show Piece.ofCommand c = _
  rw [Piece.ofCommand, isDirective_of_mnemonic hf hname, if_neg Bool.false_ne_true]
  exact Piece.ofInstruction_eq_ok.mpr ⟨ops, g, e, hops, by rw [hname]; exact hg, he, rfl⟩

/-! ## Lines of a sweep -/

/-- The line of a decoded instruction is assembled to its bytes. -/
theorem yields_display {source : ByteSource} {address : UInt32} {i : Instruction}
    (h : decode source address = .ok i)
    (hnames : ∀ a n, names a = some n → IsReferable n ∧ value? n = some (a.toNat : Int))
    (hlong : ∀ s ∈ i.slots, s.1.short?.isSome = true → s.2 < 0x100 →
      (names (UInt32.ofNat s.2)).isSome = true) :
    IsLine (i.display names).toList ∧ ∀ number offset, ∃ entry : Entry,
      Line.parse (i.display names).toList number offset = .ok entry.1 ∧
        entry.Yields base value? i.bytes := by
  have hreferable : ∀ a n, names a = some n → IsReferable n := fun a n hn => (hnames a n hn).1
  cases hi : i.content with
  | known f fields =>
    have hmade := isMadeOf_of_decode h hi
    obtain ⟨hline, hparse⟩ := parse_display hmade hi hreferable
    refine ⟨hline, fun number offset => ?_⟩
    obtain ⟨c, hc, hname, hoperands⟩ := hparse number offset
    obtain ⟨piece, hpiece⟩ := yields_of_known hmade hi hnames hlong hname hoperands
    exact ⟨_, hc, hpiece⟩
  | unknown =>
    obtain ⟨hline, hparse⟩ := parse_display_unknown hi hreferable
    refine ⟨hline, fun number offset => ?_⟩
    obtain ⟨c, hc, hname, hoperands⟩ := hparse number offset
    have hopcode : i.opcode = opcodeKey i.bytes := by rw [Instruction.opcode, hi]
    rw [hopcode] at hoperands
    obtain ⟨piece, hpiece⟩ := yields_of_data ((content_of_decode h).2 hi) hname hoperands
    exact ⟨_, hc, hpiece⟩
  | truncated => exact absurd hi (content_of_decode h).1

/-- The pieces of lines become the bytes of the lines. -/
theorem map_bytes_chunksFrom {rows : List (Instruction × Entry)}
    (h : ∀ row ∈ rows, row.2.Yields base value? row.1.bytes) (start : Nat) :
    (chunksFrom base value? start (rows.map (·.2))).map Chunk.bytes =
      rows.map fun row => row.1.bytes := by
  induction rows generalizing start with
  | nil => rfl
  | cons row rows ih =>
    rw [List.forall_mem_cons] at h
    rw [List.map_cons, chunksFrom, List.map_cons, List.map_cons, ih h.2, h.1.bytes]

end

/-- Lines that are assembled to bytes, each of them wherever it stands, are together
assembled to all the bytes. -/
theorem isAssembly_of_yields {base : UInt32} {externals : List (String × UInt32)}
    {rows : List (Instruction × Entry)}
    (h : ∀ row ∈ rows, row.2.Yields base
      (fun name => (lastExternal? externals name).map fun v => (v.toNat : Int)) row.1.bytes) :
    IsAssembly base externals (rows.map (·.2)) (rows.map fun row => row.1.bytes).flatten := by
  have hvalue : entryValue? base externals (rows.map (·.2)) =
      fun name => (lastExternal? externals name).map fun v => (v.toNat : Int) := by
    funext name
    refine entryValue?_of_unlabelled ?_ name
    rw [List.forall_mem_map]
    exact fun row hrow => (h row hrow).labels
  have hpieces : ∀ entry ∈ rows.map (·.2), Piece.ofLine entry.1 = .ok entry.2 := by
    rw [List.forall_mem_map]
    exact fun row hrow => (h row hrow).piece
  have hclosed : ∀ entry ∈ rows.map (·.2), entry.2.IsClosed :=
    fun entry hentry => Piece.isClosed_ofLine (hpieces entry hentry)
  refine ⟨hpieces, ?_, ?_, ?_⟩
  · refine Piece.diagnostics_concat ?_
    rw [List.forall_mem_map, List.forall_mem_map]
    exact fun row hrow => (h row hrow).diagnostics
  · rw [hvalue]
    intro r hr
    obtain ⟨p, hp, r', hr', offset, rfl⟩ := Piece.exists_of_mem_concat hr
    rw [List.map_map, List.mem_map] at hp
    obtain ⟨row, hrow, rfl⟩ := hp
    exact (h row hrow).numbers offset r' hr'
  · rw [hvalue, flatten_chunksFrom hclosed, Chunk.code, map_bytes_chunksFrom h]

/-- **A disassembly is assembled to the bytes that it was made of.** The names that it is
written with have the values of their addresses outside, and can be told from numbers,
registers and marked values. The last item is not cut off, and a number below 0x100 in a
long field has a name, as without one it is put into a short field. -/
theorem assemble_sweep {base : UInt32} {bytes : List UInt8} {names : Names}
    {externals : List (String × UInt32)}
    (hnames : ∀ a n, names a = some n → IsReferable n ∧ lastExternal? externals n = some a)
    (hwhole : ∀ i, (sweep base bytes).getLast? = some i → i.isTruncated = false)
    (hlong : ∀ i ∈ sweep base bytes, ∀ s ∈ i.slots, s.1.short?.isSome = true → s.2 < 0x100 →
      (names (UInt32.ofNat s.2)).isSome = true) :
    assemble ("\n".intercalate ((sweep base bytes).map (·.display names))) base externals =
      .ok bytes := by
  have hvalues : ∀ a n, names a = some n → IsReferable n ∧
      (lastExternal? externals n).map (fun v => (v.toNat : Int)) = some (a.toNat : Int) := by
    intro a n hn
    refine ⟨(hnames a n hn).1, ?_⟩
    rw [(hnames a n hn).2]
    rfl
  have hitems : ∀ i ∈ sweep base bytes, IsLine (i.display names).toList ∧
      ∀ number offset, ∃ entry : Entry,
        Line.parse (i.display names).toList number offset = .ok entry.1 ∧
          entry.Yields base
            (fun name => (lastExternal? externals name).map fun v => (v.toNat : Int)) i.bytes := by
    intro i hi
    obtain ⟨source, address, hdecode⟩ := exists_decode_of_mem_sweep base bytes hi
      (isTruncated_of_mem_sweep base bytes hwhole i hi)
    exact yields_display hdecode hvalues (hlong i hi)
  obtain ⟨rows, hrows, hlines, hyields⟩ := Assembler.parseAll_intercalate
    (fun i hi => (hitems i hi).1) (fun i hi => (hitems i hi).2) 0 0
  -- the text falls into the lines that it was joined from
  have htext : ("\n".intercalate ((sweep base bytes).map (·.display names))).toList =
      ['\n'].intercalate ((sweep base bytes).map fun i => (i.display names).toList) := by
    rw [String.toList_intercalate, List.map_map]
    rfl
  have hbytes : (rows.map fun row => row.1.bytes).flatten = bytes := by
    have hflatten := flatten_sweep base bytes
    rw [← hrows, List.map_map] at hflatten
    exact hflatten
  refine assemble_of_isAssembly ?_ ?_ (hbytes ▸ isAssembly_of_yields hyields)
  · rw [htext, hlines, List.map_map]
    rfl
  · rw [List.forall_mem_map]
    exact fun row hrow => (hyields row hrow).labels

/-- A load with a name for the small number in its long field, and a return. -/
theorem assemble_sweep_longOffX :
    assemble "ld A,(count,X)\nret" 0x8000 [("count", 0x10)] = .ok [0xD6, 0x00, 0x10, 0x81] := by
  let names : Names := fun a => if a = 0x10 then some "count" else none
  let load : Instruction :=
    ⟨0x8000, [0xD6, 0x00, 0x10], .known ⟨"ld", [.reg .a, .longOffX], 0xD6⟩ [0, 0x10]⟩
  let ret : Instruction := ⟨0x8003, [0x81], .known ⟨"ret", [], 0x81⟩ []⟩
  have hload : catalog.withOpcode? 0xD6 = some ⟨"ld", [.reg .a, .longOffX], 0xD6⟩ := by
    rw [withOpcode?_catalog]
    decide +kernel
  have hreturn : catalog.withOpcode? 0x81 = some ⟨"ret", [], 0x81⟩ := by
    rw [withOpcode?_catalog]
    decide +kernel
  have hsweep : sweep 0x8000 [0xD6, 0x00, 0x10, 0x81] = [load, ret] := by
    have hfirst : decode (Region.source ⟨0x8000, [0xD6, 0x00, 0x10, 0x81]⟩) 0x8000 = .ok load :=
      @decode_of_serves _ _ ⟨"ld", [.reg .a, .longOffX], 0xD6⟩ hload [0x00, 0x10] rfl
        (Region.serves_front 0x8000 [0x81] (by decide))
    have hsecond : decode (Region.source ⟨0x8003, [0x81]⟩) 0x8003 = .ok ret :=
      @decode_of_serves _ _ ⟨"ret", [], 0x81⟩ hreturn [] rfl
        (Region.serves_front 0x8003 [] (by decide))
    have hload' : firstInstruction 0x8000 [0xD6, 0x00, 0x10, 0x81] = load := by
      rw [firstInstruction, hfirst]
    have hret : firstInstruction 0x8003 [0x81] = ret := by
      rw [firstInstruction, hsecond]
    rw [sweep_eq 0x8000 (List.cons_ne_nil _ _), hload']
    show load :: sweep 0x8003 [0x81] = _
    rw [sweep_eq 0x8003 (List.cons_ne_nil _ _), hret]
    show load :: ret :: sweep 0x8004 [] = _
    rw [sweep]
  have hnames : ∀ a n, names a = some n →
      IsReferable n ∧ lastExternal? [("count", 0x10)] n = some a := by
    intro a n hn
    have ha : a = 0x10 ∧ "count" = n := by
      by_cases h : a = 0x10
      · exact ⟨h, Option.some.inj ((if_pos h).symm.trans hn)⟩
      · cases (if_neg h).symm.trans hn
    obtain ⟨rfl, rfl⟩ := ha
    exact ⟨⟨by decide, by decide, by decide, by decide⟩, rfl⟩
  have hwhole : ∀ i, (sweep 0x8000 [0xD6, 0x00, 0x10, 0x81]).getLast? = some i →
      i.isTruncated = false := by
    rw [hsweep]
    intro i hi
    obtain rfl : ret = i := Option.some.inj hi
    rfl
  have hlong : ∀ i ∈ sweep 0x8000 [0xD6, 0x00, 0x10, 0x81], ∀ s ∈ i.slots,
      s.1.short?.isSome = true → s.2 < 0x100 → (names (UInt32.ofNat s.2)).isSome = true := by
    rw [hsweep]
    decide
  have hassemble := assemble_sweep hnames hwhole hlong
  rw [hsweep] at hassemble
  exact hassemble

end Stm8
