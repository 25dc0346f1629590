import Stm8.Encoding
import Stm8.Proofs.Form.Emission
import Stm8.Proofs.Form.Opcodes
import Stm8.Proofs.Success

/-!
# The layout of an encoded instruction

`Form.assemble` visits the slots of a form one after another and adds to the
encoding what each operand calls for. This module says what comes out of it
without the loop:

> `hasLayout_of_encode`: the bytes of an encoding are the opcode, moved on by the
> bit number (`Slot.shift`), and the fields (`Slot.field`) in the order of
> `Form.emission`; its requests and its notes are those of the slots.
> `exists_encode`: there is an encoding for all operands that pass the check of a
> form that fits the buffer.
-/

namespace Stm8

/-! ## What one slot contributes -/

/-- A slot of a form with the operand that fills it. -/
abbrev Slot := Mode × Operand

namespace Slot

/-- The bytes of the field: the value, or filler in the place of a symbol. -/
def field (s : Slot) : List UInt8 :=
  match s.2.value with
  | none => []
  | some (.const v) => bigEndian s.1.width v
  | some (.symbol _) => List.replicate s.1.width filler

/-- The bit number that a constant in a bit slot selects. -/
def bit? (s : Slot) : Option (Fin 8) :=
  match s.1.bit?, s.2.value with
  | some _, some (.const v) => if h : 0 ≤ v ∧ v ≤ 7 then some ⟨v.toNat, by omega⟩ else none
  | _, _ => none

/-- How many bit numbers the opcode has to move on from that of the slot. -/
def shift (s : Slot) : Int :=
  match s.1.bit?, s.bit? with
  | some n, some k => (k.val : Int) - n.val
  | _, _ => 0

/-- The note of a constant that leaves the range of the slot. -/
def notes (s : Slot) : List Problem :=
  match s.2.value with
  | some (.const v) =>
    if s.1.takesValue && (v < s.1.range.1 || s.1.range.2 < v) then
      [.outOfRange v s.1.range.1 s.1.range.2 s.2.span]
    else []
  | _ => []

/-- The request for a symbol, where the field begins at `start` and the last byte
of the opcode stands at `last`. -/
def requests (last start : Nat) (s : Slot) : List Relocation :=
  match s.2.value, s.1.relocation? with
  | some (.symbol r), some kind =>
    [⟨if s.1.bit?.isSome then last else start, kind, r.name, r.addend, s.2.span⟩]
  | _, _ => []

end Slot

/-- The requests of consecutive slots, the first of whose fields begins at
`start`. -/
def requestsFrom (last start : Nat) : List Slot → List Relocation
  | [] => []
  | s :: rest => s.requests last start ++ requestsFrom last (start + s.field.length) rest

/-- The slots of a form with the operands that fill them. -/
def Form.slots (f : Form) (ops : List Operand) : List Slot :=
  f.modes.zip ops

/-! ## Slots without and with a bit number -/

theorem Mode.width_of_bit? {m : Mode} {n : Fin 8} (h : m.bit? = some n) : m.width = 0 := by
  cases m <;> first | rfl | cases h

theorem Mode.range_of_bit? {m : Mode} {n : Fin 8} (h : m.bit? = some n) : m.range = (0, 7) := by
  cases m <;> first | rfl | cases h

/-- A slot has a kind of relocation exactly if it takes a value. -/
theorem Mode.isSome_relocation? (m : Mode) : m.relocation?.isSome = m.takesValue := by
  cases m <;> rfl

/-- A field is never longer than its slot is wide. -/
theorem Slot.length_field_le (s : Slot) : s.field.length ≤ s.1.width := by
  unfold field
  split <;> simp

/-- Whether the operand has a value if the slot takes one. -/
def Slot.IsFilled (s : Slot) : Prop :=
  s.1.takesValue = true → s.2.value.isSome = true

/-- A slot that is filled has a field as long as the slot is wide. -/
theorem Slot.length_field {s : Slot} (h : s.IsFilled) : s.field.length = s.1.width := by
  cases hv : s.2.value with
  | none =>
    rcases Nat.eq_zero_or_pos s.1.width with hw | hw
    · simp [field, hv, hw]
    · have hsome := h (by simp [Mode.takesValue, hw])
      rw [hv] at hsome
      cases hsome
  | some value => cases value <;> simp [field, hv]

theorem Slot.shift_of_not_bit {s : Slot} (h : s.1.bit? = none) : s.shift = 0 := by
  unfold shift
  rw [h]

/-- A byte that is moved on by nothing stays. -/
theorem modify_shift_zero (bytes : List UInt8) (last : Nat) :
    bytes.modify last (· + 2 * UInt8.ofInt 0) = bytes := by
  have hid : (fun b : UInt8 => b + 2 * UInt8.ofInt 0) = id := by
    funext b
    show b + 2 * 0 = b
    rw [UInt8.mul_zero, UInt8.add_zero]
  rw [hid, List.modify_id]

namespace Encoding

/-- An encoding is determined by its bytes, its requests and its notes. -/
theorem eq_of_parts {e e' : Encoding} (hcode : e.code.toList = e'.code.toList)
    (hrelocations : e.relocations = e'.relocations)
    (hdiagnostics : e.diagnostics = e'.diagnostics) : e = e' := by
  obtain ⟨⟨bytes, hbytes⟩, relocations, diagnostics⟩ := e
  obtain ⟨⟨bytes', hbytes'⟩, relocations', diagnostics'⟩ := e'
  obtain rfl : bytes = bytes' := hcode
  obtain rfl : relocations = relocations' := hrelocations
  obtain rfl : diagnostics = diagnostics' := hdiagnostics
  rfl

/-! ## One step -/

theorem checkRange_eq (e : Encoding) (m : Mode) (v : Int) (span : Span) :
    e.checkRange m v span =
      if v < m.range.1 || m.range.2 < v then
        { e with diagnostics := e.diagnostics ++ [.outOfRange v m.range.1 m.range.2 span] }
      else e :=
  rfl

theorem checkRange_code (e : Encoding) (m : Mode) (v : Int) (span : Span) :
    (e.checkRange m v span).code = e.code := by
  rw [checkRange_eq]
  split <;> rfl

theorem checkRange_relocations (e : Encoding) (m : Mode) (v : Int) (span : Span) :
    (e.checkRange m v span).relocations = e.relocations := by
  rw [checkRange_eq]
  split <;> rfl

/-- A range check adds the note of the slot. -/
theorem checkRange_diagnostics (e : Encoding) {m : Mode} {op : Operand} {v : Int}
    (hv : op.value = some (.const v)) (hm : m.takesValue = true) :
    (e.checkRange m v op.span).diagnostics = e.diagnostics ++ Slot.notes (m, op) := by
  rw [checkRange_eq]
  unfold Slot.notes
  simp only [hv, hm, Bool.true_and]
  split
  · rfl
  · simp

theorem foldBit_relocations (e : Encoding) (last : Nat) (n : Fin 8) (v : Int) :
    (e.foldBit last n v).relocations = e.relocations := by
  unfold foldBit
  split <;> rfl

theorem foldBit_diagnostics (e : Encoding) (last : Nat) (n : Fin 8) (v : Int) :
    (e.foldBit last n v).diagnostics = e.diagnostics := by
  unfold foldBit
  split <;> rfl

/-- A constant in a bit slot moves the opcode on. -/
theorem foldBit_code (e : Encoding) (last : Nat) {m : Mode} {op : Operand} {n : Fin 8} {v : Int}
    (hn : m.bit? = some n) (hv : op.value = some (.const v)) :
    (e.foldBit last n v).code.toList =
      e.code.toList.modify last (· + 2 * UInt8.ofInt (Slot.shift (m, op))) := by
  unfold foldBit Slot.shift Slot.bit?
  simp only [hn, hv]
  by_cases h : 0 ≤ v ∧ v ≤ 7
  · have hv' : ((v.toNat : Nat) : Int) = v := Int.toNat_of_nonneg h.1
    simp [h.1, h.2, hv']
  · have hb : (decide (0 ≤ v) && decide (v ≤ 7)) = false := by
      simpa using h
    rw [hb, dif_neg h]
    exact (modify_shift_zero _ _).symm

/-- What the encoding of `e` and of one more slot has to be. -/
structure IsExtendedBy (e : Encoding) (last : Nat) (s : Slot) (next : Encoding) : Prop where
  /-- The opcode is moved on and the field put behind. -/
  code : next.code.toList =
    e.code.toList.modify last (· + 2 * UInt8.ofInt s.shift) ++ s.field
  /-- The requests of the slot are added. -/
  relocations : next.relocations = e.relocations ++ s.requests last e.code.size
  /-- The notes of the slot are added. -/
  diagnostics : next.diagnostics = e.diagnostics ++ s.notes

section

variable {e next : Encoding} {last : Nat} {m : Mode} {op : Operand} {value : Value}

/-- In a bit slot a constant moves the opcode on, and a symbol is left to do so later. -/
theorem isExtendedBy_of_bit {n : Fin 8} (hm : m.bit? = some n) (hv : op.value = some value)
    (h : e.place last m op = .ok next) : e.IsExtendedBy last (m, op) next := by
  have htakes : m.takesValue = true := by simp [Mode.takesValue, hm]
  have hwidth := Mode.width_of_bit? hm
  unfold place at h
  cases value with
  | const v =>
    simp only [hv, hm, Except.ok.injEq] at h
    subst h
    constructor
    · rw [checkRange_code, foldBit_code e last hm hv]
      simp [Slot.field, hv, hwidth, bigEndian]
    · rw [checkRange_relocations, foldBit_relocations]
      simp [Slot.requests, hv]
    · rw [checkRange_diagnostics _ hv htakes, foldBit_diagnostics]
  | symbol r =>
    simp only [hv, hm, Except.ok.injEq] at h
    subst h
    have hkind : m.relocation? = some .bitNumber := by
      cases m <;> first | rfl | cases hm
    constructor
    · simp [request, Slot.shift, Slot.bit?, Slot.field, hv, hm, hwidth, modify_shift_zero]
    · simp [request, Slot.requests, hv, hkind, hm]
    · simp [request, Slot.notes, hv]

/-- A slot without a field adds nothing. -/
theorem isExtendedBy_of_width (hm : m.bit? = none) (hw : m.width = 0)
    (hv : op.value = some value) (h : e.place last m op = .ok next) :
    e.IsExtendedBy last (m, op) next := by
  have htakes : m.takesValue = false := by simp [Mode.takesValue, hm, hw]
  have hkind : m.relocation? = none := by
    rw [← Option.not_isSome_iff_eq_none, Mode.isSome_relocation?, htakes]
    decide
  have hshift : Slot.shift (m, op) = 0 := Slot.shift_of_not_bit hm
  have hnext : next = e := by
    unfold place at h
    cases value <;> simpa [hv, hm, hw] using h.symm
  subst hnext
  constructor
  · rw [hshift, modify_shift_zero]
    cases value <;> simp [Slot.field, hv, hw, bigEndian]
  · cases value <;> simp [Slot.requests, hv, hkind]
  · cases value <;> simp [Slot.notes, hv, htakes]

/-- A field is put behind, with filler in it for a symbol. -/
theorem isExtendedBy_of_field (hm : m.bit? = none) (hw : m.width ≠ 0)
    (hv : op.value = some value) (h : e.place last m op = .ok next) :
    e.IsExtendedBy last (m, op) next := by
  have htakes : m.takesValue = true := by
    simp [Mode.takesValue, Nat.pos_of_ne_zero hw]
  have hshift : Slot.shift (m, op) = 0 := Slot.shift_of_not_bit hm
  unfold place at h
  cases value with
  | const v =>
    simp only [hv, hm, hw, if_false, mapError_eq_ok] at h
    obtain ⟨code, hcode, rfl⟩ := map_eq_ok.mp h
    rw [CodeBuffer.append_eq_ok_iff, checkRange_code] at hcode
    constructor
    · rw [hshift, modify_shift_zero]
      simp [hcode, Slot.field, hv]
    · simp [checkRange_relocations, Slot.requests, hv]
    · exact checkRange_diagnostics e hv htakes
  | symbol r =>
    cases hkind : m.relocation? with
    | none =>
      -- a slot that takes a value can ask for one
      rw [← Mode.isSome_relocation?, hkind] at htakes
      cases htakes
    | some kind =>
      simp only [hv, hm, hw, hkind, if_false, mapError_eq_ok] at h
      obtain ⟨code, hcode, rfl⟩ := map_eq_ok.mp h
      rw [CodeBuffer.append_eq_ok_iff] at hcode
      constructor
      · rw [hshift, modify_shift_zero]
        simp [hcode, request, Slot.field, hv]
      · simp [request, Slot.requests, hv, hkind, hm]
      · simp [request, Slot.notes, hv]

/-- One step adds what the slot contributes. -/
theorem isExtendedBy_of_place (h : e.place last m op = .ok next) :
    e.IsExtendedBy last (m, op) next := by
  cases hv : op.value with
  | none =>
    unfold place at h
    simp only [hv, Except.ok.injEq] at h
    subst h
    constructor
    · cases hm : m.bit? <;> simp [Slot.shift, Slot.bit?, Slot.field, hm, hv, modify_shift_zero]
    · simp [Slot.requests, hv]
    · simp [Slot.notes, hv]
  | some value =>
    cases hm : m.bit? with
    | some n => exact isExtendedBy_of_bit hm hv h
    | none =>
      by_cases hw : m.width = 0
      · exact isExtendedBy_of_width hm hw hv h
      · exact isExtendedBy_of_field hm hw hv h

end

/-- A step succeeds as long as there is room for the field. -/
theorem exists_place (e : Encoding) (last : Nat) (m : Mode) (op : Operand)
    (h : e.code.size + m.width ≤ CodeBuffer.capacity) : ∃ next, e.place last m op = .ok next := by
  have hroom : ∀ (e' : Encoding) (bytes : List UInt8), e'.code = e.code →
      bytes.length = m.width → ∃ next, e'.append bytes = .ok next := by
    intro e' bytes hcode hlength
    unfold append CodeBuffer.append
    rw [hcode, dif_pos (by rw [hlength]; exact h)]
    exact ⟨_, rfl⟩
  unfold place
  split
  · exact ⟨_, rfl⟩
  · exact ⟨_, rfl⟩
  · exact ⟨_, rfl⟩
  · split
    · exact ⟨_, rfl⟩
    · next v _ _ _ =>
      obtain ⟨next, hnext⟩ :=
        hroom (e.checkRange m v op.span) _ (checkRange_code ..) (length_bigEndian m.width v)
      exact ⟨next, by rw [hnext]; rfl⟩
  · split
    · exact ⟨_, rfl⟩
    · next s _ hbit hw =>
      have htakes : m.takesValue = true := by
        simp [Mode.takesValue, Nat.pos_of_ne_zero hw]
      cases hkind : m.relocation? with
      | none =>
        rw [← Mode.isSome_relocation?, hkind] at htakes
        cases htakes
      | some kind =>
        obtain ⟨next, hnext⟩ := hroom
          (e.request ⟨e.code.size, kind, s.name, s.addend, op.span⟩)
          (List.replicate m.width filler) rfl List.length_replicate
        refine ⟨next, ?_⟩
        dsimp only
        rw [hnext]
        rfl

/-! ## All steps -/

/-- A change in front does not touch what is put behind. -/
theorem modify_append_left {f : UInt8 → UInt8} {behind : List UInt8} :
    ∀ {bytes : List UInt8} {i : Nat}, i < bytes.length →
      (bytes ++ behind).modify i f = bytes.modify i f ++ behind
  | _ :: _, 0, _ => rfl
  | b :: bytes, i + 1, h => by
    rw [List.cons_append, List.modify_succ_cons, List.modify_succ_cons, List.cons_append,
      modify_append_left (Nat.lt_of_succ_lt_succ h)]

/-- To move a byte on twice is to move it on by the sum. -/
theorem modify_modify (bytes : List UInt8) (last : Nat) (a b : Int) :
    (bytes.modify last (· + 2 * UInt8.ofInt a)).modify last (· + 2 * UInt8.ofInt b) =
      bytes.modify last (· + 2 * UInt8.ofInt (a + b)) := by
  have hsum : (fun x : UInt8 => x + 2 * UInt8.ofInt b) ∘ (fun x => x + 2 * UInt8.ofInt a) =
      fun x => x + 2 * UInt8.ofInt (a + b) := by
    funext x
    rw [Function.comp_apply, UInt8.ofInt_add, UInt8.mul_add, UInt8.add_assoc]
  rw [List.modify_modify_eq, hsum]

/-- The opcode is moved on twice, although there are fields behind it. -/
theorem modify_append_modify {bytes : List UInt8} {last : Nat} (h : last < bytes.length)
    (field : List UInt8) (a b : Int) :
    (bytes.modify last (· + 2 * UInt8.ofInt a) ++ field).modify last (· + 2 * UInt8.ofInt b) =
      bytes.modify last (· + 2 * UInt8.ofInt (a + b)) ++ field := by
  have hlast : last < (bytes.modify last (· + 2 * UInt8.ofInt a)).length := by
    rw [List.length_modify]
    exact h
  rw [modify_append_left hlast, modify_modify]

/-- What the encoding of `e` and of more slots has to be. -/
structure IsExtendedByAll (e : Encoding) (last : Nat) (slots : List Slot) (next : Encoding) :
    Prop where
  /-- The opcode is moved on by all slots, and the fields are put behind. -/
  code : next.code.toList =
    e.code.toList.modify last (· + 2 * UInt8.ofInt (slots.map Slot.shift).sum) ++
      (slots.map Slot.field).flatten
  /-- The requests of the slots are added. -/
  relocations : next.relocations = e.relocations ++ requestsFrom last e.code.size slots
  /-- The notes of the slots are added. -/
  diagnostics : next.diagnostics = e.diagnostics ++ slots.flatMap Slot.notes

/-- All steps together add what the slots contribute. -/
theorem isExtendedByAll_of_foldlM {last : Nat} :
    ∀ {slots : List Slot} {e next : Encoding}, last < e.code.size →
      slots.foldlM (fun e (m, op) => e.place last m op) e = .ok next →
      e.IsExtendedByAll last slots next := by
  intro slots
  induction slots with
  | nil =>
    intro e next _ h
    obtain rfl : e = next := by simpa [pure, Except.pure] using h
    constructor
    · simp [modify_shift_zero]
    · simp [requestsFrom]
    · simp
  | cons s slots ih =>
    intro e next hlast h
    rw [List.foldlM_cons, bind_eq_ok] at h
    -- the step moves the opcode on once, and the steps behind it move it on again
    obtain ⟨mid, hplace, hrest⟩ := h
    have hstep := isExtendedBy_of_place hplace
    have hsize : mid.code.size = e.code.size + s.field.length := by
      rw [CodeBuffer.size, hstep.code]
      simp [CodeBuffer.size]
    have hall := ih (by omega) hrest
    constructor
    · rw [hall.code, hstep.code, modify_append_modify hlast]
      simp
    · rw [hall.relocations, hstep.relocations, hsize, List.append_assoc]
      rfl
    · rw [hall.diagnostics, hstep.diagnostics]
      simp

/-- All steps succeed as long as there is room for all fields. -/
theorem exists_foldlM_place (last : Nat) :
    ∀ (slots : List Slot) (e : Encoding),
      e.code.size + (slots.map fun s => s.1.width).sum ≤ CodeBuffer.capacity →
      ∃ next, slots.foldlM (fun e (m, op) => e.place last m op) e = .ok next := by
  intro slots
  induction slots with
  | nil => intro e _; exact ⟨e, rfl⟩
  | cons s slots ih =>
    intro e hroom
    rw [List.map_cons, List.sum_cons] at hroom
    obtain ⟨mid, hplace⟩ := exists_place e last s.1 s.2 (by omega)
    have hsize : mid.code.size = e.code.size + s.field.length := by
      rw [CodeBuffer.size, (isExtendedBy_of_place hplace).code]
      simp [CodeBuffer.size]
    have hs := s.length_field_le
    obtain ⟨next, hnext⟩ := ih mid (by omega)
    refine ⟨next, ?_⟩
    rw [List.foldlM_cons, bind_eq_ok]
    exact ⟨mid, hplace, hnext⟩

end Encoding

namespace Form

/-! ## The check -/

theorem checkSlot_eq_ok_iff {position : Nat} {m : Mode} {op : Operand} :
    checkSlot position m op = .ok () ↔ Slot.IsFilled (m, op) ∧ op.fits m = true := by
  unfold checkSlot Slot.IsFilled
  cases hv : op.value with
  | none => cases m.takesValue <;> cases op.fits m <;> simp
  | some value => cases m.takesValue <;> cases op.fits m <;> simp

theorem checkSlots_eq_ok_iff {slots : List Slot} :
    ∀ {position : Nat}, checkSlots position slots = .ok () ↔
      ∀ s ∈ slots, s.IsFilled ∧ s.2.fits s.1 = true := by
  induction slots with
  | nil => intro position; simp [checkSlots]
  | cons s slots ih =>
    intro position
    rw [checkSlots, bind_eq_ok, List.forall_mem_cons]
    constructor
    · rintro ⟨_, hs, hrest⟩
      exact ⟨checkSlot_eq_ok_iff.mp hs, ih.mp hrest⟩
    · rintro ⟨hs, hrest⟩
      exact ⟨(), checkSlot_eq_ok_iff.mpr hs, ih.mpr hrest⟩

/-- Operands pass the check exactly if there is one for each slot, and each one
has the value that the slot takes and fits it. -/
theorem check_eq_ok_iff {f : Form} {ops : List Operand} :
    f.check ops = .ok () ↔
      ops.length = f.modes.length ∧ ∀ s ∈ f.slots ops, s.IsFilled ∧ s.2.fits s.1 = true := by
  unfold check
  by_cases h : ops.length = f.modes.length
  · rw [if_neg (not_not_intro h), checkSlots_eq_ok_iff]
    exact ⟨fun hs => ⟨h, hs⟩, fun hs => hs.2⟩
  · rw [if_pos h]
    constructor
    · intro herr
      cases herr
    · intro hs
      exact absurd hs.1 h

/-! ## The whole instruction -/

/-- The bytes of an instruction: the opcode, moved on by the bit number, and the
fields behind it. -/
def layout (f : Form) (ops : List Operand) : List UInt8 :=
  f.opcodeBytes.modify (f.opcodeWidth - 1)
      (· + 2 * UInt8.ofInt ((f.slots ops).map Slot.shift).sum) ++
    ((f.emission (f.slots ops)).map Slot.field).flatten

/-- What the encoding of the operands in the form has to be. -/
structure HasLayout (f : Form) (ops : List Operand) (e : Encoding) : Prop where
  /-- The bytes are those of the layout. -/
  code : e.code.toList = f.layout ops
  /-- The requests are those of the slots. -/
  relocations : e.relocations =
    requestsFrom (f.opcodeWidth - 1) f.opcodeWidth (f.emission (f.slots ops))
  /-- The notes are those of the slots. -/
  diagnostics : e.diagnostics = (f.emission (f.slots ops)).flatMap Slot.notes

/-- The empty encoding with the opcode in it. -/
theorem append_opcodeBytes {f : Form} {start : Encoding}
    (h : Encoding.append {} f.opcodeBytes = .ok start) :
    start.code.toList = f.opcodeBytes ∧ start.relocations = [] ∧ start.diagnostics = [] := by
  obtain ⟨code, hcode, rfl⟩ := map_eq_ok.mp h
  rw [CodeBuffer.append_eq_ok_iff] at hcode
  exact ⟨hcode, rfl, rfl⟩

/-- An encoding has the layout of its form, and its operands have passed the
check. -/
theorem hasLayout_of_encode {f : Form} {ops : List Operand} {e : Encoding}
    (h : f.encode ops = .ok e) : f.check ops = .ok () ∧ f.HasLayout ops e := by
  rw [encode, mapError_eq_ok, assemble, bind_eq_ok] at h
  obtain ⟨_, hcheck, h⟩ := h
  obtain ⟨start, hstart, h⟩ := bind_eq_ok.mp h
  obtain ⟨hcode, hrelocations, hdiagnostics⟩ := append_opcodeBytes (mapError_eq_ok.mp hstart)
  have hsize : start.code.size = f.opcodeWidth := by
    rw [CodeBuffer.size, hcode, length_opcodeBytes]
  have hpos := f.opcodeWidth_pos
  have hall := Encoding.isExtendedByAll_of_foldlM (by omega) h
  refine ⟨hcheck, ?_, ?_, ?_⟩
  · rw [hall.code, hcode, f.map_emission, f.sum_emission]
    rfl
  · rw [hall.relocations, hrelocations, hsize]
    rfl
  · rw [hall.diagnostics, hdiagnostics]
    rfl

/-- There is an encoding for all operands that pass the check of a form that fits
the buffer. -/
theorem exists_encode {f : Form} {ops : List Operand} (hf : f.length ≤ CodeBuffer.capacity)
    (hcheck : f.check ops = .ok ()) : ∃ e, f.encode ops = .ok e := by
  have hlength := (check_eq_ok_iff.mp hcheck).1
  have hroom : f.opcodeBytes.length ≤ CodeBuffer.capacity := by
    rw [length_opcodeBytes]
    exact Nat.le_trans (Nat.le_add_right ..) hf
  obtain ⟨start, hstart⟩ : ∃ start, Encoding.append {} f.opcodeBytes = .ok start := by
    unfold Encoding.append CodeBuffer.append
    rw [dif_pos (by simpa [CodeBuffer.size] using hroom)]
    exact ⟨_, rfl⟩
  have hsize : start.code.size = f.opcodeWidth := by
    rw [CodeBuffer.size, (append_opcodeBytes hstart).1, length_opcodeBytes]
  have hwidths : ((f.emission (f.modes.zip ops)).map fun s => s.1.width).sum = f.fieldWidth := by
    have hmodes : (f.modes.zip ops).map (fun s => s.1.width) = f.modes.map Mode.width := by
      show (f.modes.zip ops).map (Mode.width ∘ Prod.fst) = _
      rw [← List.map_map, List.map_fst_zip (by omega)]
    rw [f.map_emission, f.sum_emission, hmodes]
    rfl
  obtain ⟨e, he⟩ := Encoding.exists_foldlM_place (f.opcodeWidth - 1)
    (f.emission (f.modes.zip ops)) start (by rw [hsize, hwidths]; exact hf)
  refine ⟨e, ?_⟩
  rw [encode, mapError_eq_ok, assemble, bind_eq_ok]
  refine ⟨(), hcheck, ?_⟩
  rw [bind_eq_ok]
  exact ⟨start, mapError_eq_ok.mpr hstart, he⟩

end Form

end Stm8
