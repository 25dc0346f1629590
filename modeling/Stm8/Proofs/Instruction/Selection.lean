import Stm8.Proofs.Form.Shortening
import Stm8.Proofs.Instruction.Operands

/-!
# Selecting a form for what is written

`select_samples` says which form is selected for sample operands. Operands that are
written for the slots of a form fit a slot exactly if the samples do
(`fits_operand`), as long as the value in its one indirect slot agrees with the
samples in whether it fits eight bits. So the same holds of them:

> `resolve_written`: selection finds a form in the place of the one that the slots
> belong to.
-/

namespace Stm8

namespace WrittenSlot

/-! ## One slot -/

/-- Whether the value that is written fits eight bits. -/
def isShort (s : WrittenSlot) : Bool :=
  s.operand.value.any Value.fits8

/-- A number fits eight bits if it does, and a name if it is marked. -/
theorem fits8_fieldValue (field : Nat) (name : Option String) (mark : Bool) :
    ((fieldValue field name).markShort mark).fits8 =
      if name.isSome then mark else decide (field < 0x100) := by
  cases name with
  | none =>
    show (decide ((0 : Int) ≤ field) && decide ((field : Int) < 0x100)) = decide (field < 0x100)
    rw [decide_eq_true (Int.natCast_nonneg field), Bool.true_and, decide_eq_decide]
    omega
  | some name => rfl

/-- What is written in a short field fits eight bits. -/
theorem isShort_of_ending {s : WrittenSlot} (hs : s.IsValid) (h : s.mode.ending true = ".s") :
    s.isShort = true := by
  obtain ⟨mode, field, name, span⟩ := s
  have hfits : field < 256 ^ mode.width := hs.fits
  have hwritten : mode.width = 1 ∧ mode.written field name =
      some ((fieldValue field name).markShort (mode.ending name.isSome == ".s")) := by
    cases mode <;> first | exact ⟨rfl, rfl⟩ | simp [Mode.ending] at h
  show (mode.written field name).any Value.fits8 = true
  rw [hwritten.2, Option.any_some, fits8_fieldValue]
  cases name with
  | none =>
    rw [hwritten.1] at hfits
    exact decide_eq_true hfits
  | some n => exact beq_iff_eq.mpr h

/-- What is written fits a slot exactly if the sample does. -/
theorem fits_operand {s : WrittenSlot} (hs : s.IsValid) {m : Mode}
    (hbit : s.mode.isImmediate = true → m.bit? = none) {short : Bool}
    (hshort : s.mode.isIndirect = true → s.isShort = short) :
    s.operand.fits m = (s.mode.sample short).fits m := by
  have hmark := isShort_of_ending hs
  obtain ⟨mode, field, name, span⟩ := s
  show mode.kind.fits (mode.written field name) m = mode.kind.fits (mode.sample short).value m
  cases mode with
  | bit n | reg r | indX | indY => rfl
  | relative | longMem | extMem | shortMem | farPtr | farPtrX | farPtrY => cases m <;> rfl
  | byte | word =>
    cases m with
    | bit n => cases hbit rfl
    | _ => rfl
  | shortOffX | shortOffY | shortPtr | shortPtrX | shortPtrY =>
    -- both values fit eight bits
    cases m <;> first
      | rfl
      | exact (hmark rfl).trans (by cases short <;> rfl)
  | shortOffSp =>
    have hfits : field < 256 := hs.fits
    cases m with
    | shortOffSp =>
      cases name with
      | none =>
        have hlt : decide ((field : Int) < 0x100) = true := decide_eq_true (by omega)
        exact hlt.trans (by cases short <;> rfl)
      | some n => cases short <;> rfl
    | _ => rfl
  | longOffX | extOffX | longOffY | extOffY | longPtr | longPtrX | longPtrY =>
    -- the sample has been chosen to agree with the value
    cases m <;> first
      | rfl
      | exact (hshort rfl).trans (by cases short <;> rfl)

/-- If both fit a slot for a bit number, they select the same one. -/
theorem bit?_operand {s : WrittenSlot} {m : Mode}
    (hbit : s.mode.isImmediate = true → m.bit? = none) (short : Bool)
    (hfits : s.operand.fits m = true) :
    Slot.bit? (m, s.operand) = Slot.bit? (m, s.mode.sample short) := by
  obtain ⟨mode, field, name, span⟩ := s
  cases m with
  | bit n =>
    -- only immediates and bit numbers are written as immediates
    cases mode with
    | bit k => rfl
    | byte | word => cases hbit rfl
    | _ => cases hfits
  | _ => rfl

end WrittenSlot

/-! ## All slots -/

section

variable {family : Form.Family} {f g : Form} {slots : List WrittenSlot}

/-- The operands that are written. -/
abbrev operandsOf (slots : List WrittenSlot) : List Operand :=
  slots.map WrittenSlot.operand

/-- There is a form of samples that agrees with the one indirect slot, if any. -/
theorem exists_short (hfamily : family ∈ Form.families) (hf : f ∈ family.forms)
    (hmodes : slots.map WrittenSlot.mode = f.modes) :
    ∃ short, ∀ s ∈ slots, s.mode.isIndirect = true → s.isShort = short := by
  have hcount := Form.indirect_slots family hfamily f hf
  rw [← hmodes, List.filter_map, List.length_map] at hcount
  have hmem : ∀ s ∈ slots, s.mode.isIndirect = true →
      s ∈ slots.filter (Mode.isIndirect ∘ WrittenSlot.mode) := fun s hs hindirect =>
    List.mem_filter.mpr ⟨hs, hindirect⟩
  rcases hlist : slots.filter (Mode.isIndirect ∘ WrittenSlot.mode) with _ | ⟨only, _ | ⟨next, rest⟩⟩
  · refine ⟨false, fun s hs hindirect => ?_⟩
    have hnil := hmem s hs hindirect
    rw [hlist] at hnil
    cases hnil
  · refine ⟨only.isShort, fun s hs hindirect => ?_⟩
    have hone := hmem s hs hindirect
    rw [hlist, List.mem_singleton] at hone
    rw [hone]
  · rw [hlist] at hcount
    simp at hcount

/-- Immediates do not meet bit numbers. -/
theorem not_bit_of_isImmediate (hfamily : family ∈ Form.families) (hf : f ∈ family.forms)
    (hg : g ∈ family.forms) {m m' : Mode} (hm : m ∈ f.modes) (hm' : m' ∈ g.modes)
    (h : m.isImmediate = true) : m'.bit? = none := by
  cases hbit : m'.bit? with
  | none => rfl
  | some n =>
    have hgbit : g.bit?.isSome = true := by
      rw [Form.bit?, List.isSome_findSome?, List.any_eq_true]
      exact ⟨m', hm', by rw [hbit]; rfl⟩
    rw [Form.not_isImmediate_of_bit family hfamily ⟨g, hg, hgbit⟩ f hf m hm] at h
    cases h

/-- A form of the family accepts what is written exactly if it accepts the samples. -/
theorem accepts_written (hfamily : family ∈ Form.families) (hf : f ∈ family.forms)
    (hg : g ∈ family.forms) (hmodes : slots.map WrittenSlot.mode = f.modes)
    (hvalid : ∀ s ∈ slots, s.IsValid) {short : Bool}
    (hshort : ∀ s ∈ slots, s.mode.isIndirect = true → s.isShort = short) :
    g.accepts (operandsOf slots) = g.accepts (f.samples short) := by
  unfold Form.accepts operandsOf Form.samples
  rw [← hmodes, List.map_map, List.zip_map_right, List.zip_map_right, List.all_map, List.all_map,
    List.length_map, List.length_map]
  refine congrArg _ ?_
  rw [Bool.eq_iff_iff, List.all_eq_true, List.all_eq_true]
  refine forall_congr' fun p => forall_congr' fun hp => ?_
  obtain ⟨hmem, hs⟩ := List.of_mem_zip hp
  have hmode : p.2.mode ∈ f.modes := hmodes ▸ List.mem_map_of_mem hs
  have hfits : p.2.operand.fits p.1 = (p.2.mode.sample short).fits p.1 :=
    WrittenSlot.fits_operand (hvalid _ hs)
      (not_bit_of_isImmediate hfamily hf hg hmode hmem) (hshort _ hs)
  show (p.2.operand.fits p.1 = true) ↔ ((p.2.mode.sample short).fits p.1 = true)
  rw [hfits]

theorem findSome?_congr {α β : Type} {p q : α → Option β} {as : List α}
    (h : ∀ a ∈ as, p a = q a) : as.findSome? p = as.findSome? q := by
  induction as with
  | nil => rfl
  | cons a as ih =>
    rw [List.forall_mem_cons] at h
    rw [List.findSome?_cons, List.findSome?_cons, h.1, ih h.2]

/-- A form that accepts what is written is filled by it as by the samples. -/
theorem filled_written (hfamily : family ∈ Form.families) (hf : f ∈ family.forms)
    (hg : g ∈ family.forms) (hmodes : slots.map WrittenSlot.mode = f.modes) (short : Bool)
    (haccepts : g.accepts (operandsOf slots) = true) :
    g.filled (operandsOf slots) = g.filled (f.samples short) := by
  have hbits : g.chosenBit? (operandsOf slots) = g.chosenBit? (f.samples short) := by
    unfold Form.chosenBit? Form.slots operandsOf Form.samples
    rw [← hmodes, List.map_map, List.zip_map_right, List.zip_map_right, List.findSome?_map,
      List.findSome?_map]
    refine findSome?_congr fun p hp => ?_
    obtain ⟨hmem, hs⟩ := List.of_mem_zip hp
    have hmode : p.2.mode ∈ f.modes := hmodes ▸ List.mem_map_of_mem hs
    have hfits : p.2.operand.fits p.1 = true := by
      rw [Form.accepts, Bool.and_eq_true, List.all_eq_true] at haccepts
      refine haccepts.2 (p.1, p.2.operand) ?_
      rw [operandsOf, List.zip_map_right]
      exact List.mem_map_of_mem hp
    exact WrittenSlot.bit?_operand (not_bit_of_isImmediate hfamily hf hg hmode hmem) short hfits
  unfold Form.filled
  rw [hbits]

end

/-- What is known about the form `g` that stands in for the form `f`, where `short`
says whether the value in the indirect slot fits eight bits. -/
structure Form.StandsInFor (g f : Form) (ops : List Operand) (short : Bool) : Prop where
  /-- The form is in the table. -/
  mem : g ∈ Form.all
  /-- It accepts the operands. -/
  accepts : g.accepts ops = true
  /-- Filled with them it has the slots of `f`, shortened if the value is short. -/
  modes : (g.filled ops).modes = f.modes.map (Mode.shortened · short)
  /-- It has its fields in the same order. -/
  reversed : g.reversed = f.reversed
  /-- If nothing was shortened, it is filled to the same opcode. -/
  opcode : f.modes.map (Mode.shortened · short) = f.modes → (g.filled ops).opcode = f.opcode
  /-- If something was shortened, it is shorter. -/
  length : f.modes.map (Mode.shortened · short) ≠ f.modes → g.length < f.length

/-- Selection for what is written for the slots of `f` finds a form that stands in for
`f`. -/
theorem resolve_written {f : Form} (hf : f ∈ Form.all) {slots : List WrittenSlot}
    (hmodes : slots.map WrittenSlot.mode = f.modes) (hvalid : ∀ s ∈ slots, s.IsValid) :
    ∃ g short, resolve f.mnemonic (operandsOf slots) = .ok g ∧
      g.StandsInFor f (operandsOf slots) short ∧
      ∀ s ∈ slots, s.mode.isIndirect = true → s.isShort = short := by
  obtain ⟨family, hfamily, hmem⟩ := Form.mem_all_iff.mp hf
  obtain ⟨short, hshort⟩ := exists_short hfamily hmem hmodes
  have hselect := Form.select_samples family hfamily f hmem short
  rw [Option.any_eq_true] at hselect
  obtain ⟨g, hfind, hreplaced⟩ := hselect
  -- the search finds the same form for what is written as for the samples
  have hsearch : family.forms.find? (·.accepts (operandsOf slots)) = some g := by
    rw [← hfind, List.find?_eq_findSome?_guard, List.find?_eq_findSome?_guard]
    refine findSome?_congr fun g hg => ?_
    rw [Option.guard, Option.guard, accepts_written hfamily hmem hg hmodes hvalid hshort]
  have hg : g ∈ family.forms := List.mem_of_find?_eq_some hsearch
  have haccepts : g.accepts (operandsOf slots) = true :=
    @List.find?_some _ (fun g : Form => g.accepts (operandsOf slots)) _ _ hsearch
  have hfilled := filled_written hfamily hmem hg hmodes short haccepts
  simp only [Form.isReplacedBy, Bool.and_eq_true, beq_iff_eq, ← hfilled] at hreplaced
  obtain ⟨⟨hshape, hreversed⟩, hrest⟩ := hreplaced
  refine ⟨g, short, ?_, ⟨Form.mem_all_iff.mpr ⟨family, hfamily, hg⟩, haccepts, hshape, hreversed,
    ?_, ?_⟩, hshort⟩
  · rw [Form.resolve_of_mem hfamily hmem, select, hsearch]
  · intro heq
    simpa [heq] using hrest
  · intro hne
    simpa [hne] using hrest

end Stm8
