import Stm8.Proofs.Instruction.Written

/-!
# Encoding undoes decoding

The operands of a decoded instruction, read from their texts, are encoded again:

> `encode_decode`: with the form that was decoded they give the decoded bytes. With
> the form that is selected for them they give the decoded bytes too, unless there is
> a number below 0x100 in a long offset or pointer; then the instruction becomes
> shorter and keeps its operands.
-/

namespace Stm8

open Form

/-- Something is shortened exactly if there is a small number in a long slot. -/
theorem map_shortened_eq_iff {slots : List WrittenSlot} :
    slots.map (fun s => s.mode.shortened (s.field < 0x100)) = slots.map WrittenSlot.mode ↔
      ∀ s ∈ slots, s.mode.short?.isSome = true → 0x100 ≤ s.field := by
  have hshorter : ∀ m : Mode, m.short?.isSome = true → m.shortened true ≠ m := by
    intro m hm
    cases m <;> first | decide | cases hm
  rw [List.map_inj_left]
  refine forall_congr' fun s => forall_congr' fun _ => ?_
  constructor
  · intro heq hsome
    refine Nat.not_lt.mp fun hlt => hshorter s.mode hsome ?_
    rwa [decide_eq_true hlt] at heq
  · intro hlarge
    by_cases hsome : s.mode.short?.isSome = true
    · rw [decide_eq_false (Nat.not_lt.mpr (hlarge hsome))]
      rfl
    · exact Mode.shortened_of_short? (Option.not_isSome_iff_eq_none.mp hsome) _

section

variable {f g : Form} {slots : List WrittenSlot} {short : Bool}

/-- Which slots are shortened can be told from the numbers in them. -/
theorem map_shortened_written (hmodes : slots.map WrittenSlot.mode = f.modes)
    (hnames : ∀ s ∈ slots, s.name = none)
    (hshort : ∀ s ∈ slots, s.mode.isIndirect = true → s.isShort = short) :
    f.modes.map (Mode.shortened · short) =
      slots.map fun s => s.mode.shortened (s.field < 0x100) := by
  rw [← hmodes, List.map_map]
  exact List.map_congr_left fun s hs => shortened_eq (hnames s hs) (hshort s hs)

/-- The selected form makes the instruction shorter if it shortens a slot. -/
theorem length_layout_lt (hself : f.StandsInFor f (operandsOf slots) false)
    (h : g.StandsInFor f (operandsOf slots) short)
    (hmodes : slots.map WrittenSlot.mode = f.modes)
    (hchanged : f.modes.map (Mode.shortened · short) ≠ f.modes) :
    (g.layout (operandsOf slots)).length < (f.layout (operandsOf slots)).length := by
  rw [length_layout_written h hmodes, length_layout_written hself hmodes]
  exact h.length hchanged

/-- The selected form gives the same bytes exactly if it shortens nothing. -/
theorem layout_eq_iff (hself : f.StandsInFor f (operandsOf slots) false)
    (h : g.StandsInFor f (operandsOf slots) short)
    (hmodes : slots.map WrittenSlot.mode = f.modes) (hnames : ∀ s ∈ slots, s.name = none) :
    g.layout (operandsOf slots) = f.layout (operandsOf slots) ↔
      f.modes.map (Mode.shortened · short) = f.modes := by
  constructor
  · intro heq
    by_cases hsame : f.modes.map (Mode.shortened · short) = f.modes
    · exact hsame
    · have hlt := length_layout_lt hself h hmodes hsame
      rw [heq] at hlt
      exact absurd hlt (Nat.lt_irrefl _)
  · intro hsame
    rw [layout_written h hmodes hnames hsame,
      layout_written hself hmodes hnames (List.map_id f.modes)]

/-- The bytes of the selected form are decoded to the numbers that are written. -/
theorem decode_written (h : g.StandsInFor f (operandsOf slots) short)
    (hmodes : slots.map WrittenSlot.mode = f.modes) (hvalid : ∀ s ∈ slots, s.IsValid)
    (hnames : ∀ s ∈ slots, s.name = none)
    (hshort : short = true → ∀ s ∈ slots, s.mode.isIndirect = true → s.isShort = true)
    (address : UInt32) (rest : List UInt8) :
    ∃ g', decode (Region.source ⟨address, g.layout (operandsOf slots) ++ rest⟩) address =
        .ok ⟨address, g.layout (operandsOf slots), .known g' (slots.map WrittenSlot.field)⟩ ∧
      g'.modes = f.modes.map (Mode.shortened · short) := by
  obtain ⟨hlength, hfilled⟩ := check_eq_ok_iff.mp (check_written h hmodes)
  have hwidth := length_layout_written h hmodes
  have hbound := length_le g h.mem
  obtain ⟨g', -, hmodes', -, hdecode⟩ :=
    decode_layout h.mem hlength (fun s hs => (hfilled s hs).1)
      (Region.serves_front address rest (by omega))
  rw [map_readBigEndian_written h hmodes hvalid hshort hnames] at hdecode
  exact ⟨g', hdecode, hmodes'.trans h.modes⟩

end

/-- **Encoding undoes decoding.** The texts of the operands of a decoded instruction are
read, wherever they stand, and what is read is encoded by the form that was decoded as
exactly the decoded bytes. The form that is selected for the mnemonic and these operands
encodes them too, in no more bytes. They are the same bytes exactly if no slot for a
long offset or pointer holds a number below 0x100; otherwise they are fewer. They are
always read back as the same numbers in the same slots, those slots being shortened. -/
theorem encode_decode {source : ByteSource} {address : UInt32} {i : Instruction} {f : Form}
    {fields : List Nat} (h : decode source address = .ok i) (hi : i.content = .known f fields)
    {parts : List Part} (hparts : parts.map Part.text = i.operands fun _ => none) :
    ∃ ops, readOperands parts = .ok ops ∧
      (∃ e, f.encode ops = .ok e ∧ e.code.toList = i.bytes ∧ e.isComplete = true) ∧
      ∃ g e, resolve i.mnemonic ops = .ok g ∧ g.encode ops = .ok e ∧ e.isComplete = true ∧
        e.code.size ≤ i.size ∧
        (e.code.toList = i.bytes ↔ ∀ s ∈ i.slots, s.1.short?.isSome = true → 0x100 ≤ s.2) ∧
        ((∃ s ∈ i.slots, s.1.short?.isSome = true ∧ s.2 < 0x100) → e.code.size < i.size) ∧
        ∀ a rest, ∃ g', decode (Region.source ⟨a, e.code.toList ++ rest⟩) a =
            .ok ⟨a, e.code.toList, .known g' fields⟩ ∧
          g'.modes = i.slots.map fun s => s.1.shortened (s.2 < 0x100) := by
  have hmade := isMadeOf_of_decode h hi
  have hf : f ∈ Form.all := (mem_of_withOpcode? hmade.first).1
  obtain ⟨slots, rfl, hslots, hmodes, hfields, hvalid, hnames⟩ :=
    exists_written_slots hmade hi (fun _ _ hn => by cases hn) hparts
  replace hnames : ∀ s ∈ slots, s.name = none := by
    intro s hs
    rw [hnames s hs, ite_self]
  have hself := standsInFor_self hf hmodes hvalid
  have hlayout : f.layout (operandsOf slots) = i.bytes := by
    rw [bytes_of_written hmade hmodes hfields,
      layout_written hself hmodes hnames (List.map_id f.modes)]
  have hown : ∃ e, f.encode (operandsOf slots) = .ok e ∧ e.code.toList = i.bytes ∧
      e.isComplete = true := by
    rw [← hlayout]
    exact encode_unnamed hself hmodes hvalid (fun hs => Bool.noConfusion hs) hnames
  refine ⟨operandsOf slots, readOperands_written hvalid, hown, ?_⟩
  -- the selected form shortens all long slots or none
  obtain ⟨g, short, hresolve, hg, hshort⟩ := resolve_written hf hmodes hvalid
  have hshort' : short = true → ∀ s ∈ slots, s.mode.isIndirect = true → s.isShort = true := by
    rintro rfl
    exact hshort
  obtain ⟨e, he, hcode, hcomplete⟩ := encode_unnamed hg hmodes hvalid hshort' hnames
  have hshortened := map_shortened_written hmodes hnames hshort
  have hlarge : (∀ s ∈ i.slots, s.1.short?.isSome = true → 0x100 ≤ s.2) ↔
      f.modes.map (Mode.shortened · short) = f.modes := by
    rw [hshortened, hslots, ← hmodes, map_shortened_eq_iff]
    simp
  have hsame : e.code.toList = i.bytes ↔ f.modes.map (Mode.shortened · short) = f.modes := by
    rw [hcode, ← hlayout]
    exact layout_eq_iff hself hg hmodes hnames
  have hshorter : f.modes.map (Mode.shortened · short) ≠ f.modes → e.code.size < i.size := by
    rw [CodeBuffer.size, Instruction.size, hcode, ← hlayout]
    exact length_layout_lt hself hg hmodes
  have hmnemonic : i.mnemonic = f.mnemonic := by rw [Instruction.mnemonic, hi]
  refine ⟨g, e, by rw [hmnemonic, hresolve], he, hcomplete, ?_, hsame.trans hlarge.symm, ?_, ?_⟩
  · by_cases hunchanged : f.modes.map (Mode.shortened · short) = f.modes
    · rw [CodeBuffer.size, hsame.mpr hunchanged]
      exact Nat.le_refl _
    · exact Nat.le_of_lt (hshorter hunchanged)
  · rintro ⟨s, hs, hsome, hlt⟩
    refine hshorter fun hunchanged => ?_
    exact absurd (hlarge.mpr hunchanged s hs hsome) (Nat.not_le.mpr hlt)
  · intro a rest
    obtain ⟨g', hdecode, hmodes'⟩ := decode_written hg hmodes hvalid hnames hshort' a rest
    rw [hfields, ← hcode] at hdecode
    refine ⟨g', hdecode, ?_⟩
    rw [hmodes', hshortened, hslots, List.map_map]
    rfl

/-- A load through a long pointer to page zero becomes one through a short pointer. -/
theorem encode_decode_longPtrX :
    ∃ ops, readOperands [⟨"A", .nowhere⟩, ⟨"([0x0012.w],X)", .nowhere⟩] = .ok ops ∧
      ∃ g e, resolve "ld" ops = .ok g ∧ g.encode ops = .ok e ∧ e.isComplete = true ∧
        e.code.size < 4 := by
  have hfirst : catalog.withOpcode? 0x72D6 = some ⟨"ld", [.reg .a, .longPtrX], 0x72D6⟩ := by
    rw [withOpcode?_catalog]
    decide +kernel
  have hdecode : decode (Region.source ⟨0x8000, [0x72, 0xD6, 0x00, 0x12]⟩) 0x8000 =
      .ok ⟨0x8000, [0x72, 0xD6, 0x00, 0x12],
        .known ⟨"ld", [.reg .a, .longPtrX], 0x72D6⟩ [0, 0x12]⟩ :=
    @decode_of_serves _ _ ⟨"ld", [.reg .a, .longPtrX], 0x72D6⟩ hfirst [0x00, 0x12] rfl
      (Region.serves_front 0x8000 [] (by decide))
  obtain ⟨ops, hread, -, g, e, hresolve, he, hcomplete, -, -, hshorter, -⟩ :=
    @encode_decode _ _ _ _ _ hdecode rfl [⟨"A", .nowhere⟩, ⟨"([0x0012.w],X)", .nowhere⟩] rfl
  exact ⟨ops, hread, g, e, hresolve, he, hcomplete,
    hshorter ⟨(.longPtrX, 0x12), by simp [Instruction.slots], rfl, by decide⟩⟩

end Stm8
