import Stm8.Proofs.Instruction.Decoding

/-!
# Decoding undoes encoding

The bytes of a layout, wherever they stand, are read back as one instruction:

> `decode_layout`: `decode` takes exactly these bytes, finds the first form with
> the opcode of the filled form, and finds in the slot of every operand the number
> that was put into its field.
> `decode_encode`: the same for the encoding of operands by `Form.encode`, with any
> bytes behind it.
-/

namespace Stm8

open Form

/-! ## From the layout to the bytes of the first form -/

theorem Form.opcodeBytes_congr {f g : Form} (h : f.opcode = g.opcode) :
    f.opcodeBytes = g.opcodeBytes := by
  unfold opcodeBytes
  rw [h]

/-- Filled slots have fields of the widths of the form. -/
theorem map_length_field {f : Form} {ops : List Operand} (hlength : ops.length = f.modes.length)
    (hfilled : ∀ s ∈ f.slots ops, s.IsFilled) :
    ((f.slots ops).map Slot.field).map List.length = f.modes.map Mode.width := by
  have hfields : ((f.slots ops).map Slot.field).map List.length =
      ((f.slots ops).map Prod.fst).map Mode.width := by
    rw [List.map_map, List.map_map]
    exact List.map_congr_left fun s hs => Slot.length_field (hfilled s hs)
  rw [hfields, modes_eq_map_slots hlength]

/-- The layout is the opcode of the form that is found, with the fields behind it. -/
theorem layout_eq_of_first {f g : Form} (hf : f ∈ all) {ops : List Operand}
    (hlength : ops.length = f.modes.length)
    (hg : catalog.withOpcode? (f.filled ops).opcode = some g)
    (hmodes : g.modes = (f.filled ops).modes) :
    f.layout ops = g.opcodeBytes ++ (g.emission ((f.slots ops).map Slot.field)).flatten := by
  unfold layout
  rw [← opcodeBytes_filled hf hlength, opcodeBytes_congr (mem_of_withOpcode? hg).2.symm,
    f.map_emission, emission_congr (reversed_of_first_filled hf hlength hg hmodes).symm]

/-- An instruction is as long as its form says. -/
theorem length_layout {f : Form} {ops : List Operand} (hlength : ops.length = f.modes.length)
    (hfilled : ∀ s ∈ f.slots ops, s.IsFilled) : (f.layout ops).length = f.length := by
  unfold layout
  rw [List.length_append, List.length_modify, length_opcodeBytes, f.map_emission,
    length_flatten_emission, map_length_field hlength hfilled]
  rfl

/-! ## Reading the layout back -/

/-- The bytes of a layout are read back where they stand. -/
theorem decode_layout {f : Form} (hf : f ∈ all) {ops : List Operand}
    (hlength : ops.length = f.modes.length) (hfilled : ∀ s ∈ f.slots ops, s.IsFilled)
    {source : ByteSource} {address : UInt32} (hserves : source.Serves address (f.layout ops)) :
    ∃ g, catalog.withOpcode? (f.filled ops).opcode = some g ∧ g.modes = (f.filled ops).modes ∧
      f.layout ops = g.opcodeBytes ++ (g.emission ((f.slots ops).map Slot.field)).flatten ∧
      decode source address =
        .ok ⟨address, f.layout ops,
          .known g ((f.slots ops).map fun s => readBigEndian s.field)⟩ := by
  obtain ⟨g, hg, hmodes⟩ := exists_first_filled hf hlength
  have hlayout := layout_eq_of_first hf hlength hg hmodes
  have hwidths : ((f.slots ops).map Slot.field).map List.length = g.modes.map Mode.width := by
    rw [map_length_field hlength hfilled, hmodes, map_width_filled]
  have hwidth : (g.emission ((f.slots ops).map Slot.field)).flatten.length = g.fieldWidth := by
    rw [length_flatten_emission, hwidths]
    rfl
  have hfirst : catalog.withOpcode? g.opcode = some g := by
    rw [(mem_of_withOpcode? hg).2]
    exact hg
  rw [hlayout] at hserves
  have hdecode := decode_of_serves hfirst hwidth hserves
  rw [fields_flatten hwidths, List.map_map, ← hlayout] at hdecode
  exact ⟨g, hg, hmodes, hlayout, hdecode⟩

/-! ## Encodings -/

/-- **Decoding undoes encoding.** An encoding, with any bytes behind it, is read
back as exactly its own bytes, as many as its form says. What is found is the first
form of the table with the opcode of the encoding, which is that of the encoded
form, two further for each bit if a constant selects another bit number. It has the
slots of the encoded form but for the bit number, and in the slot of every operand
stands the number that was put into its field. -/
theorem decode_encode {f : Form} (hf : f ∈ Form.all) {ops : List Operand} {e : Encoding}
    (h : f.encode ops = .ok e) (address : UInt32) (rest : List UInt8) :
    ∃ g, decode (Region.source ⟨address, e.code.toList ++ rest⟩) address =
        .ok ⟨address, e.code.toList,
          .known g ((f.slots ops).map fun s => readBigEndian s.field)⟩ ∧
      e.code.size = f.length ∧
      e.code.toList = g.opcodeBytes ++ (g.emission ((f.slots ops).map Slot.field)).flatten ∧
      Form.all.find? (·.opcode == (f.filled ops).opcode) = some g ∧
      (g.opcode.toNat : Int) = f.opcode.toNat + 2 * ((f.slots ops).map Slot.shift).sum ∧
      g.modes = (f.filled ops).modes := by
  obtain ⟨hcheck, hlayout⟩ := hasLayout_of_encode h
  obtain ⟨hlength, hslots⟩ := check_eq_ok_iff.mp hcheck
  have hfilled : ∀ s ∈ f.slots ops, s.IsFilled := fun s hs => (hslots s hs).1
  have hsize := length_layout hlength hfilled
  have hshort := length_le f hf
  have hserves : (Region.source ⟨address, f.layout ops ++ rest⟩).Serves address (f.layout ops) :=
    Region.serves_front address rest (by omega)
  obtain ⟨g, hg, hmodes, hbytes, hdecode⟩ := decode_layout hf hlength hfilled hserves
  rw [hlayout.code]
  refine ⟨g, hdecode, ?_, hbytes, ?_, ?_, hmodes⟩
  · rw [CodeBuffer.size, hlayout.code, hsize]
  · rw [← withOpcode?_catalog, hg]
  · rw [(mem_of_withOpcode? hg).2, toNat_opcode_filled hf hlength]

/-- A bit test with a bit number, a symbol and a byte behind it. -/
theorem decode_encode_btjt :
    (⟨"btjt", [.longMem, .bit 0, .relative], 0x7200⟩ : Form) ∈ Form.all ∧
      ∃ g, decode (Region.source ⟨0xFFFFFFFE, [0x72, 0x06, 0x50, 0x05, 0xAA, 0x9D]⟩) 0xFFFFFFFE =
          .ok ⟨0xFFFFFFFE, [0x72, 0x06, 0x50, 0x05, 0xAA], .known g [0x5005, 0, 0xAA]⟩ ∧
        g.opcode.toNat = 0x7206 ∧ g.modes = [.longMem, .bit 3, .relative] := by
  have hf : (⟨"btjt", [.longMem, .bit 0, .relative], 0x7200⟩ : Form) ∈ Form.all := by
    decide +kernel
  refine ⟨hf, ?_⟩
  obtain ⟨g, hdecode, -, -, -, hopcode, hmodes⟩ :=
    @decode_encode _ hf [.memory 0x5005, .immediate 3, .symbol "loop"] _ rfl 0xFFFFFFFE [0x9D]
  exact ⟨g, hdecode, Int.ofNat.inj hopcode, hmodes⟩

end Stm8
