import Stm8.Proofs.Encoding.Fitting
import Stm8.Proofs.Instruction.Decoded
import Stm8.Proofs.Instruction.RoundTrip
import Stm8.Proofs.Instruction.Selection

/-!
# Encoding what is written

The operands that are written for the slots of a form are encoded by every form that
stands in for it:

> `encode_written`: nothing is noted, whether there are names or not.
> `layout_written`: numbers are put where they were, if nothing is shortened.
> `exists_written_slots`: the texts of a decoded instruction are such operands.
-/

namespace Stm8

open Form

/-! ## Modes -/

namespace Mode

/-- A field holds at least the numbers of its width. -/
theorem range_of_isAbsolute {m : Mode} (h : m.isAbsolute = true) :
    m.range.1 ≤ 0 ∧ m.range.2 = 256 ^ m.width - 1 := by
  cases m <;> first | exact ⟨by decide, rfl⟩ | cases h

theorem short?_of_width {m : Mode} (h : m.width = 0) : m.short? = none := by
  cases m <;> first | rfl | cases h

theorem width_of_short? {m : Mode} (h : m.short?.isSome = true) :
    (m.shortened true).width = 1 := by
  cases m <;> first | rfl | cases h

theorem isAbsolute_of_short? {m : Mode} (h : m.short?.isSome = true) : m.isAbsolute = true := by
  cases m <;> first | rfl | cases h

/-- Shortening leaves a slot for a number one. -/
theorem isAbsolute_shortened {m : Mode} (h : m.isAbsolute = true) (short : Bool) :
    (m.shortened short).isAbsolute = true := by
  cases m <;> cases short <;> first | rfl | cases h

end Mode

/-! ## One slot -/

/-- A constant in the range of a slot is not noted. -/
theorem Slot.notes_of_inRange {s : Slot} {v : Int} (hv : s.2.value = some (.const v))
    (hleast : s.1.range.1 ≤ v) (hgreatest : v ≤ s.1.range.2) : s.notes = [] := by
  rw [Slot.notes, hv]
  refine if_neg ?_
  rw [decide_eq_false (Int.not_lt.mpr hleast), decide_eq_false (Int.not_lt.mpr hgreatest)]
  simp

namespace WrittenSlot

/-- The value that is written: none without a field, the bit number, a displacement, or
what stands for the number in the field. -/
theorem value_cases (s : WrittenSlot) :
    (s.operand.value = none ∧ s.mode.takesValue = false ∧ s.mode.width = 0) ∨
      (∃ n, s.mode = .bit n ∧ s.operand.value = some (.const n.val)) ∨
      (s.mode = .relative ∧
        s.operand.value = some (.const (readSigned (UInt8.ofNat s.field)))) ∨
      (s.mode.isAbsolute = true ∧
        ∃ mark, s.operand.value = some ((fieldValue s.field s.name).markShort mark)) := by
  obtain ⟨mode, field, name, span⟩ := s
  cases mode with
  | reg r | indX | indY => exact Or.inl ⟨rfl, rfl, rfl⟩
  | bit n => exact Or.inr (Or.inl ⟨n, rfl, rfl⟩)
  | relative => exact Or.inr (Or.inr (Or.inl ⟨rfl, rfl⟩))
  | _ => exact Or.inr (Or.inr (Or.inr ⟨rfl, _, rfl⟩))

/-- A slot that takes a value is written with one. -/
theorem isFilled {s : WrittenSlot} {m : Mode} (h : m.takesValue = s.mode.takesValue) :
    Slot.IsFilled (m, s.operand) := by
  intro htakes
  show s.operand.value.isSome = true
  rcases s.value_cases with ⟨-, hnone, -⟩ | ⟨n, -, hv⟩ | ⟨-, hv⟩ | ⟨-, mark, hv⟩
  · rw [show m.takesValue = true from htakes, hnone] at h
    cases h
  all_goals rw [hv]; rfl

/-- A number asks for no symbol. -/
theorem requests_of_unnamed {s : WrittenSlot} (h : s.name = none) (last start : Nat) (m : Mode) :
    Slot.requests last start (m, s.operand) = [] := by
  unfold Slot.requests
  rcases s.value_cases with ⟨hv, -, -⟩ | ⟨n, -, hv⟩ | ⟨-, hv⟩ | ⟨-, mark, hv⟩
  all_goals simp only [hv]
  rw [h]
  rfl

/-- A long slot holds a short value exactly if a small number is written there. -/
theorem isShort_of_short? {s : WrittenSlot} (h : s.mode.short?.isSome = true) :
    s.isShort = if s.name.isSome then false else decide (s.field < 0x100) := by
  obtain ⟨mode, field, name, span⟩ := s
  have hwritten : mode.written field name = some ((fieldValue field name).markShort false) := by
    cases mode <;> first | (cases name <;> rfl) | cases h
  show (mode.written field name).any Value.fits8 = _
  rw [hwritten, Option.any_some, fits8_fieldValue]

/-- A number that is shortened fits the shorter field. -/
theorem field_lt_shortened {s : WrittenSlot} (hs : s.IsValid) (h : s.name = none) {short : Bool}
    (hshort : short = true → s.mode.isIndirect = true → s.isShort = true) :
    s.field < 256 ^ (s.mode.shortened short).width := by
  by_cases hsome : s.mode.short?.isSome = true
  · cases short with
    | false => exact hs.fits
    | true =>
      have h8 := hshort rfl (Mode.isIndirect_of_short? hsome)
      rw [isShort_of_short? hsome, h] at h8
      rw [Mode.width_of_short? hsome]
      exact of_decide_eq_true h8
  · rw [Mode.shortened_of_short? (Option.not_isSome_iff_eq_none.mp hsome)]
    exact hs.fits

/-- A number is put into a field as it was. -/
theorem field_of_unnamed {s : WrittenSlot} (h : s.name = none) {m : Mode} {short : Bool}
    (hwidth : m.width = (s.mode.shortened short).width) :
    Slot.field (m, s.operand) = bigEndian m.width s.field := by
  unfold Slot.field
  rcases s.value_cases with ⟨hv, -, hzero⟩ | ⟨n, hn, hv⟩ | ⟨hrelative, hv⟩ | ⟨-, mark, hv⟩
  · have hmode : (s.mode.shortened short).width = 0 := by
      rw [Mode.shortened_of_short? (Mode.short?_of_width hzero), hzero]
    rw [hv, hwidth, hmode]
    rfl
  · rw [hn, Mode.shortened_of_short? rfl] at hwidth
    rw [hv, hwidth]
    rfl
  · rw [hrelative, Mode.shortened_of_short? rfl] at hwidth
    rw [hv, hwidth]
    exact bigEndian_readSigned s.field
  · rw [hv, h]
    rfl

/-- A number in a field is found there again. -/
theorem readBigEndian_field {s : WrittenSlot} (hs : s.IsValid) (h : s.name = none) {m : Mode}
    {short : Bool} (hwidth : m.width = (s.mode.shortened short).width)
    (hshort : short = true → s.mode.isIndirect = true → s.isShort = true) :
    readBigEndian (Slot.field (m, s.operand)) = s.field := by
  have hlt := field_lt_shortened hs h hshort
  have hread := readBigEndian_bigEndian m.width s.field
  have hmod : ((s.field : Nat) : Int) % 256 ^ m.width = s.field := by
    rw [← hwidth, ← Int.ofNat_lt, Int.natCast_pow] at hlt
    exact Int.emod_eq_of_lt (Int.natCast_nonneg _) hlt
  rw [field_of_unnamed h hwidth]
  omega

/-- What is written is in the range of the slot. -/
theorem notes_eq_nil {s : WrittenSlot} (hs : s.IsValid) {m : Mode} {short : Bool}
    (hrange : m.range = (s.mode.shortened short).range)
    (hshort : short = true → s.mode.isIndirect = true → s.isShort = true) :
    Slot.notes (m, s.operand) = [] := by
  rcases s.value_cases with ⟨hv, -, -⟩ | ⟨n, hn, hv⟩ | ⟨hrelative, hv⟩ | ⟨habsolute, mark, hv⟩
  · rw [Slot.notes, hv]
  · have hbound := n.isLt
    rw [hn, Mode.shortened_of_short? rfl] at hrange
    refine Slot.notes_of_inRange hv ?_ ?_ <;> rw [hrange, Mode.range] <;> omega
  · have hsigned := readSigned_bounds (UInt8.ofNat s.field)
    rw [hrelative, Mode.shortened_of_short? rfl] at hrange
    refine Slot.notes_of_inRange hv ?_ ?_ <;> rw [hrange, Mode.range] <;> omega
  · cases hname : s.name with
    | some name => rw [Slot.notes, hv, hname]; rfl
    | none =>
      have hbounds := Mode.range_of_isAbsolute (Mode.isAbsolute_shortened habsolute short)
      have hlt := field_lt_shortened hs hname hshort
      rw [← Int.ofNat_lt, Int.natCast_pow] at hlt
      rw [← hrange] at hbounds
      rw [hname] at hv
      refine Slot.notes_of_inRange hv (show m.range.1 ≤ _ by omega) ?_
      rw [hbounds.2]
      exact Int.le_sub_one_of_lt hlt

end WrittenSlot

/-! ## Forms that stand in for another -/

section

variable {f g : Form} {slots : List WrittenSlot} {short : Bool}

/-- What a bit number does not change is the same in a slot of the form that stands in. -/
theorem shape_eq {α : Type} {p : Mode → α} (hp : ∀ k m, p (Mode.withBit k m) = p m)
    (h : g.StandsInFor f (operandsOf slots) short)
    (hmodes : slots.map WrittenSlot.mode = f.modes) {x : Mode × WrittenSlot}
    (hx : x ∈ g.modes.zip slots) : p x.1 = p (x.2.mode.shortened short) := by
  have hshapes : g.modes.map p = slots.map fun s => p (s.mode.shortened short) := by
    rw [← map_filled hp g (operandsOf slots), h.modes, ← hmodes, List.map_map, List.map_map]
    rfl
  exact eq_of_mem_zip hshapes x hx

theorem width_of_mem (h : g.StandsInFor f (operandsOf slots) short)
    (hmodes : slots.map WrittenSlot.mode = f.modes) {x : Mode × WrittenSlot}
    (hx : x ∈ g.modes.zip slots) : x.1.width = (x.2.mode.shortened short).width :=
  shape_eq (fun _ m => by cases m <;> rfl) h hmodes hx

theorem takesValue_of_mem (h : g.StandsInFor f (operandsOf slots) short)
    (hmodes : slots.map WrittenSlot.mode = f.modes) {x : Mode × WrittenSlot}
    (hx : x ∈ g.modes.zip slots) : x.1.takesValue = x.2.mode.takesValue := by
  have hshape : x.1.takesValue = (x.2.mode.shortened short).takesValue :=
    shape_eq (fun _ m => by cases m <;> rfl) h hmodes hx
  rw [hshape]
  cases x.2.mode <;> cases short <;> rfl

/-- The slots of a form with what is written for another one. -/
theorem mem_slots {s : Slot} (hs : s ∈ g.slots (operandsOf slots)) :
    ∃ x ∈ g.modes.zip slots, s = (x.1, x.2.operand) := by
  rw [Form.slots, operandsOf, List.zip_map_right, List.mem_map] at hs
  obtain ⟨x, hx, rfl⟩ := hs
  exact ⟨x, hx, rfl⟩

/-- A form takes what is written for its own slots, and selects its own bit number. -/
theorem standsInFor_self (hf : f ∈ Form.all) (hmodes : slots.map WrittenSlot.mode = f.modes)
    (hvalid : ∀ s ∈ slots, s.IsValid) : f.StandsInFor f (operandsOf slots) false := by
  obtain ⟨family, hfamily, hmem⟩ := Form.mem_all_iff.mp hf
  obtain ⟨short, hshort⟩ := exists_short hfamily hmem hmodes
  obtain ⟨hown, hfilled⟩ := Form.own_samples family hfamily f hmem short
  have haccepts : f.accepts (operandsOf slots) = true := by
    rw [accepts_written hfamily hmem hmem hmodes hvalid hshort, hown]
  have hsame : f.modes.map (Mode.shortened · false) = f.modes := List.map_id f.modes
  rw [← filled_written hfamily hmem hmem hmodes short haccepts] at hfilled
  refine ⟨hf, haccepts, ?_, rfl, ?_, ?_⟩
  · rw [hfilled, hsame]
  · intro _
    rw [hfilled]
  · intro hne
    exact absurd hsame hne

/-- The operands pass the check of the form that stands in. -/
theorem check_written (h : g.StandsInFor f (operandsOf slots) short)
    (hmodes : slots.map WrittenSlot.mode = f.modes) :
    g.check (operandsOf slots) = .ok () := by
  rw [check_eq_ok_iff]
  refine ⟨length_of_accepts h.accepts,
    fun s hs => ⟨?_, fits_of_accepts h.accepts s hs⟩⟩
  obtain ⟨x, hx, rfl⟩ := mem_slots hs
  exact WrittenSlot.isFilled (takesValue_of_mem h hmodes hx)

theorem length_layout_written (h : g.StandsInFor f (operandsOf slots) short)
    (hmodes : slots.map WrittenSlot.mode = f.modes) :
    (g.layout (operandsOf slots)).length = g.length := by
  obtain ⟨hlength, hslots⟩ := check_eq_ok_iff.mp (check_written h hmodes)
  exact length_layout hlength fun s hs => (hslots s hs).1

/-- What is written is encoded without a note by the form that stands in. -/
theorem encode_written (h : g.StandsInFor f (operandsOf slots) short)
    (hmodes : slots.map WrittenSlot.mode = f.modes) (hvalid : ∀ s ∈ slots, s.IsValid)
    (hshort : short = true → ∀ s ∈ slots, s.mode.isIndirect = true → s.isShort = true) :
    ∃ e, g.encode (operandsOf slots) = .ok e ∧ g.HasLayout (operandsOf slots) e ∧
      e.diagnostics = [] := by
  have hroom : g.length ≤ CodeBuffer.capacity :=
    Nat.le_trans (length_le g h.mem) (by decide)
  obtain ⟨e, he⟩ := exists_encode hroom (check_written h hmodes)
  have hlayout := (hasLayout_of_encode he).2
  refine ⟨e, he, hlayout, ?_⟩
  rw [hlayout.diagnostics, List.flatMap_eq_nil_iff]
  intro s hs
  rw [g.mem_emission] at hs
  obtain ⟨x, hx, rfl⟩ := mem_slots hs
  have hmem : x.2 ∈ slots := (List.of_mem_zip hx).2
  have hrange : x.1.range = (x.2.mode.shortened short).range :=
    shape_eq (fun _ m => by cases m <;> rfl) h hmodes hx
  exact WrittenSlot.notes_eq_nil (hvalid _ hmem) hrange fun hs => hshort hs _ hmem

/-- Numbers ask for no symbols. -/
theorem requestsFrom_of_unnamed (hnames : ∀ s ∈ slots, s.name = none) {written : List Slot}
    (hwritten : ∀ s ∈ written, s ∈ g.slots (operandsOf slots)) (last start : Nat) :
    requestsFrom last start written = [] := by
  induction written generalizing start with
  | nil => rfl
  | cons s written ih =>
    rw [List.forall_mem_cons] at hwritten
    obtain ⟨x, hx, rfl⟩ := mem_slots hwritten.1
    rw [requestsFrom, WrittenSlot.requests_of_unnamed (hnames _ (List.of_mem_zip hx).2),
      ih hwritten.2, List.nil_append]

/-- Numbers are encoded without anything missing. -/
theorem encode_unnamed (h : g.StandsInFor f (operandsOf slots) short)
    (hmodes : slots.map WrittenSlot.mode = f.modes) (hvalid : ∀ s ∈ slots, s.IsValid)
    (hshort : short = true → ∀ s ∈ slots, s.mode.isIndirect = true → s.isShort = true)
    (hnames : ∀ s ∈ slots, s.name = none) :
    ∃ e, g.encode (operandsOf slots) = .ok e ∧ e.code.toList = g.layout (operandsOf slots) ∧
      e.isComplete = true := by
  obtain ⟨e, he, hlayout, hnotes⟩ := encode_written h hmodes hvalid hshort
  refine ⟨e, he, hlayout.code, ?_⟩
  rw [Encoding.isComplete, hnotes, hlayout.relocations,
    requestsFrom_of_unnamed hnames fun s hs => g.mem_emission.mp hs]
  rfl

/-- The fields of the numbers that are written. -/
theorem map_field_written {g : Form} (hlength : slots.length = g.modes.length)
    (hwidths : g.modes.map Mode.width = slots.map fun s => s.mode.width)
    (hnames : ∀ s ∈ slots, s.name = none) :
    (g.slots (operandsOf slots)).map Slot.field =
      slots.map fun s => bigEndian s.mode.width s.field := by
  have hfields : ∀ x ∈ g.modes.zip slots,
      Slot.field (x.1, x.2.operand) = bigEndian x.2.mode.width x.2.field := by
    intro x hx
    have hwidth : x.1.width = x.2.mode.width := eq_of_mem_zip hwidths x hx
    rw [← hwidth]
    exact WrittenSlot.field_of_unnamed (hnames _ (List.of_mem_zip hx).2)
      (show x.1.width = (x.2.mode.shortened false).width from hwidth)
  rw [Form.slots, operandsOf, List.zip_map_right, List.map_map]
  calc
    (g.modes.zip slots).map (Slot.field ∘ Prod.map id WrittenSlot.operand)
      = (g.modes.zip slots).map (fun x => bigEndian x.2.mode.width x.2.field) :=
        List.map_congr_left hfields
    _ = ((g.modes.zip slots).map Prod.snd).map (fun s => bigEndian s.mode.width s.field) := by
        rw [List.map_map]
        rfl
    _ = slots.map (fun s => bigEndian s.mode.width s.field) := by
        rw [List.map_snd_zip (by omega)]

theorem length_written (h : g.accepts (operandsOf slots) = true) :
    slots.length = g.modes.length := by
  rw [← length_of_accepts h, operandsOf, List.length_map]

/-- The layout of the numbers that are written, for a form that has the widths of their
slots. -/
theorem layout_of_numbers {f g : Form} (hg : g ∈ all) (hlength : slots.length = g.modes.length)
    (hwidths : g.modes.map Mode.width = slots.map fun s => s.mode.width)
    (hopcode : (g.filled (operandsOf slots)).opcode = f.opcode)
    (hreversed : g.reversed = f.reversed)
    (hnames : ∀ s ∈ slots, s.name = none) :
    g.layout (operandsOf slots) =
      f.opcodeBytes ++
        (f.emission (slots.map fun s => bigEndian s.mode.width s.field)).flatten := by
  have hcount : (operandsOf slots).length = g.modes.length := by
    rw [operandsOf, List.length_map, hlength]
  unfold Form.layout
  rw [← opcodeBytes_filled hg hcount, opcodeBytes_congr hopcode, g.map_emission,
    map_field_written hlength hwidths hnames, emission_congr hreversed]

theorem map_width_written (h : g.StandsInFor f (operandsOf slots) short)
    (hmodes : slots.map WrittenSlot.mode = f.modes)
    (hsame : f.modes.map (Mode.shortened · short) = f.modes) :
    g.modes.map Mode.width = slots.map fun s => s.mode.width := by
  rw [← map_width_filled g (operandsOf slots), h.modes, hsame, ← hmodes, List.map_map]
  rfl

/-- The layout of the numbers that are written, for a form that stands in without
shortening anything. -/
theorem layout_written (h : g.StandsInFor f (operandsOf slots) short)
    (hmodes : slots.map WrittenSlot.mode = f.modes) (hnames : ∀ s ∈ slots, s.name = none)
    (hsame : f.modes.map (Mode.shortened · short) = f.modes) :
    g.layout (operandsOf slots) =
      f.opcodeBytes ++
        (f.emission (slots.map fun s => bigEndian s.mode.width s.field)).flatten :=
  layout_of_numbers h.mem (length_written h.accepts) (map_width_written h hmodes hsame)
    (h.opcode hsame) h.reversed hnames

/-- The numbers that are written are found in the fields of the form that stands in. -/
theorem map_readBigEndian_written (h : g.StandsInFor f (operandsOf slots) short)
    (hmodes : slots.map WrittenSlot.mode = f.modes) (hvalid : ∀ s ∈ slots, s.IsValid)
    (hshort : short = true → ∀ s ∈ slots, s.mode.isIndirect = true → s.isShort = true)
    (hnames : ∀ s ∈ slots, s.name = none) :
    (g.slots (operandsOf slots)).map (fun s => readBigEndian (Slot.field s)) =
      slots.map WrittenSlot.field := by
  have hlength := length_written h.accepts
  have hfields : ∀ x ∈ g.modes.zip slots,
      readBigEndian (Slot.field (x.1, x.2.operand)) = x.2.field := by
    intro x hx
    have hmem := (List.of_mem_zip hx).2
    exact WrittenSlot.readBigEndian_field (hvalid _ hmem) (hnames _ hmem)
      (width_of_mem h hmodes hx) fun hs => hshort hs _ hmem
  rw [Form.slots, operandsOf, List.zip_map_right, List.map_map]
  calc
    (g.modes.zip slots).map
        ((fun s => readBigEndian (Slot.field s)) ∘ Prod.map id WrittenSlot.operand)
      = (g.modes.zip slots).map (fun x => x.2.field) := List.map_congr_left hfields
    _ = ((g.modes.zip slots).map Prod.snd).map WrittenSlot.field := by
        rw [List.map_map]
        rfl
    _ = slots.map WrittenSlot.field := by
        rw [List.map_snd_zip (by omega)]

/-- Without names, a slot is shortened exactly if the number in it is small. -/
theorem shortened_eq {s : WrittenSlot} (hname : s.name = none)
    (hshort : s.mode.isIndirect = true → s.isShort = short) :
    s.mode.shortened short = s.mode.shortened (s.field < 0x100) := by
  by_cases hsome : s.mode.short?.isSome = true
  · rw [← hshort (Mode.isIndirect_of_short? hsome), WrittenSlot.isShort_of_short? hsome, hname]
    rfl
  · have hnone := Option.not_isSome_iff_eq_none.mp hsome
    rw [Mode.shortened_of_short? hnone, Mode.shortened_of_short? hnone]

end

/-! ## Instructions -/

/-- The slots of a decoded instruction, as they are written with names. -/
theorem exists_written_slots {i : Instruction} {f : Form} {fields : List Nat}
    (hmade : i.IsMadeOf f fields) (hi : i.content = .known f fields) {names : Names}
    (hnames : ∀ a n, names a = some n → IsReferable n) {parts : List Part}
    (hparts : parts.map Part.text = i.operands names) :
    ∃ slots : List WrittenSlot, parts = slots.map WrittenSlot.part ∧
      i.slots = slots.map (fun s => (s.mode, s.field)) ∧
      slots.map WrittenSlot.mode = f.modes ∧ slots.map WrittenSlot.field = fields ∧
      (∀ s ∈ slots, s.IsValid) ∧
      ∀ s ∈ slots, s.name = if s.mode.isAbsolute then names (UInt32.ofNat s.field) else none := by
  have hslots : i.slots = f.modes.zip fields := by rw [Instruction.slots, hi]
  have htexts : parts.map Part.text = i.slots.map (fun s => s.1.operandText s.2
      (if s.1.isAbsolute then names (UInt32.ofNat s.2) else none)) := by
    rw [hparts, Instruction.operands, hi]
  obtain ⟨slots, hpart, hslot, hname⟩ := exists_written
    (fun s => if s.1.isAbsolute then names (UInt32.ofNat s.2) else none) i.slots parts htexts
  have hzip : slots.map (fun s => (s.mode, s.field)) = f.modes.zip fields := hslot.trans hslots
  have hlength := hmade.length
  refine ⟨slots, hpart.symm, hslot.symm, ?_, ?_, ?_, hname⟩
  · have hfst := congrArg (List.map Prod.fst) hzip
    rw [List.map_map, List.map_fst_zip (by omega)] at hfst
    exact hfst
  · have hsnd := congrArg (List.map Prod.snd) hzip
    rw [List.map_map, List.map_snd_zip (by omega)] at hsnd
    exact hsnd
  · intro s hs
    have hmem : (s.mode, s.field) ∈ f.modes.zip fields := hzip ▸ List.mem_map_of_mem hs
    refine ⟨hmade.fits _ hmem, fun n hn => ?_⟩
    rw [hname s hs] at hn
    dsimp only at hn
    split at hn
    · exact hnames _ n hn
    · cases hn

/-- The bytes of a decoded instruction, told by its written slots. -/
theorem bytes_of_written {i : Instruction} {f : Form} {fields : List Nat}
    (hmade : i.IsMadeOf f fields) {slots : List WrittenSlot}
    (hmodes : slots.map WrittenSlot.mode = f.modes)
    (hfields : slots.map WrittenSlot.field = fields) :
    i.bytes = f.opcodeBytes ++
      (f.emission (slots.map fun s => bigEndian s.mode.width s.field)).flatten := by
  rw [hmade.bytes, ← hmodes, ← hfields, List.zip_map', List.map_map]
  rfl

end Stm8
