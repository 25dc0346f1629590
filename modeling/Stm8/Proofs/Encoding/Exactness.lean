import Stm8.Proofs.Instruction.RoundTrip

/-!
# What an encoding is, and when there is none

The layout of an encoding runs through all slots of a form and adds what each of them
contributes. This module says the same slot by slot, for the slots that take a value:
where the field of each one begins (`Form.fieldOffset`), what it holds, and which of them
have a request or a note (`Form.IsEncodedAs`). The operands that a form does not take are
refused with the first thing that is wrong with them (`Form.Refuses`).

> `encode_exact`: a form of the table either refuses its operands, or encodes them as
> described. There is no third case, so that the buffer never overflows.
-/

namespace Stm8

/-! ## Slots that take a value -/

/-- A slot that takes no value contributes nothing, whatever its operand says. -/
theorem Slot.parts_of_not_takesValue {s : Slot} (h : s.1.takesValue = false) :
    s.field = [] ∧ s.notes = [] ∧ ∀ last start, s.requests last start = [] := by
  have hwidth : s.1.width = 0 := by
    rw [Mode.takesValue, Bool.or_eq_false_iff, decide_eq_false_iff_not] at h
    exact Nat.eq_zero_of_not_pos h.1
  have hkind : s.1.relocation? = none := by
    rw [← Option.not_isSome_iff_eq_none, Mode.isSome_relocation?, h]
    exact Bool.false_ne_true
  refine ⟨List.eq_nil_of_length_eq_zero ?_, ?_, fun last start => ?_⟩
  · exact Nat.le_zero.mp (hwidth ▸ s.length_field_le)
  · unfold notes
    rw [h]
    cases s.2.value with
    | none => rfl
    | some value => cases value <;> rfl
  · unfold requests
    rw [hkind]
    cases s.2.value with
    | none => rfl
    | some value => cases value <;> rfl

/-- What the slots that take no value do not contribute to can do without them. -/
theorem flatMap_valueSlots {α : Type} {part : Slot → List α}
    (h : ∀ s : Slot, s.1.takesValue = false → part s = []) (slots : List Slot) :
    (slots.filter (·.1.takesValue)).flatMap part = slots.flatMap part := by
  induction slots with
  | nil => rfl
  | cons s slots ih =>
    cases htakes : s.1.takesValue with
    | false =>
      rw [List.filter_cons, htakes, if_neg Bool.false_ne_true, ih, List.flatMap_cons, h s htakes,
        List.nil_append]
    | true => rw [List.filter_cons, htakes, if_pos rfl, List.flatMap_cons, List.flatMap_cons, ih]

theorem requestsFrom_valueSlots (last : Nat) :
    ∀ (slots : List Slot) (start : Nat),
      requestsFrom last start (slots.filter (·.1.takesValue)) = requestsFrom last start slots
  | [], _ => rfl
  | s :: slots, start => by
    cases htakes : s.1.takesValue with
    | false =>
      obtain ⟨hfield, -, hrequests⟩ := Slot.parts_of_not_takesValue htakes
      rw [List.filter_cons, htakes, if_neg Bool.false_ne_true,
        requestsFrom_valueSlots last slots start, requestsFrom, hrequests, hfield]
      rfl
    | true =>
      rw [List.filter_cons, htakes, if_pos rfl, requestsFrom, requestsFrom,
        requestsFrom_valueSlots last slots _]

/-! ## One slot after the other -/

/-- Where the field of the slot with index `i` begins, the first one at `start`. -/
def offsetFrom (start : Nat) (slots : List Slot) (i : Nat) : Nat :=
  start + ((slots.take i).map fun s => s.1.width).sum

theorem offsetFrom_succ (start : Nat) (s : Slot) (slots : List Slot) (i : Nat) :
    offsetFrom start (s :: slots) (i + 1) = offsetFrom (start + s.1.width) slots i := by
  rw [offsetFrom, offsetFrom, List.take_succ_cons, List.map_cons, List.sum_cons, Nat.add_assoc]

/-- The requests of consecutive slots are those of each one, for the place of its own
field. -/
theorem requestsFrom_eq_flatMap (last : Nat) :
    ∀ {slots : List Slot} (start : Nat), (∀ s ∈ slots, s.IsFilled) →
      requestsFrom last start slots =
        slots.zipIdx.flatMap fun (s, i) => s.requests last (offsetFrom start slots i)
  | [], _, _ => rfl
  | s :: slots, start, hfilled => by
    rw [List.forall_mem_cons] at hfilled
    rw [requestsFrom, Slot.length_field hfilled.1,
      requestsFrom_eq_flatMap last (start + s.1.width) hfilled.2, List.zipIdx_cons',
      List.flatMap_cons, List.flatMap_map]
    simp only [Prod.map, id, offsetFrom_succ]
    rfl

/-- The fields of consecutive slots stand at their places. -/
theorem take_drop_flatten_fields (front : List UInt8) :
    ∀ {slots : List Slot} {i : Nat} {s : Slot}, (∀ s ∈ slots, s.IsFilled) → slots[i]? = some s →
      ((front ++ (slots.map Slot.field).flatten).drop
        (offsetFrom front.length slots i)).take s.1.width = s.field := by
  intro slots
  induction slots generalizing front with
  | nil =>
    intro i s _ hs
    cases hs
  | cons t slots ih =>
    intro i s hfilled hs
    rw [List.forall_mem_cons] at hfilled
    have hlength := Slot.length_field hfilled.1
    cases i with
    | zero =>
      obtain rfl : t = s := Option.some.inj hs
      rw [offsetFrom, List.take_zero, List.map_nil, List.sum_nil, Nat.add_zero, List.drop_left,
        List.map_cons, List.flatten_cons, List.take_left' hlength]
    | succ i =>
      have hrest := ih (front ++ t.field) hfilled.2 hs
      rw [List.length_append, hlength, List.append_assoc] at hrest
      rw [offsetFrom_succ, List.map_cons, List.flatten_cons]
      exact hrest

namespace Form

/-! ## The opcode -/

/-- The bytes of the opcode are its number in as many bytes as it takes. -/
theorem opcodeBytes_eq_bigEndian (f : Form) :
    f.opcodeBytes = bigEndian f.opcodeWidth f.opcode.toNat := by
  have hlow : ∀ k : UInt16, UInt8.ofInt k.toNat = k.toUInt8 := by
    intro k
    apply UInt8.toNat_inj.mp
    have hk := toNat_ofInt k.toNat
    rw [toNat_low]
    omega
  have hhigh : ∀ k : UInt16, UInt8.ofInt ((k.toNat : Int) / 256) = (k >>> 8).toUInt8 := by
    intro k
    apply UInt8.toNat_inj.mp
    have hk := toNat_ofInt ((k.toNat : Int) / 256)
    have hlt := k.toNat_lt
    rw [toNat_high]
    omega
  have hwidth := f.length_opcodeBytes
  rcases f.opcodeBytes_eq with ⟨-, hb⟩ | ⟨-, hb⟩
  · rw [hb] at hwidth
    rw [hb, ← hwidth, ← hlow]
    rfl
  · rw [hb] at hwidth
    rw [hb, ← hwidth, ← hlow f.opcode, ← hhigh f.opcode]
    rfl

/-- The forms that store their operands in reverse are those of `mov`. -/
theorem reversed_iff : ∀ f ∈ all, f.reversed = true ↔ f.mnemonic = "mov" := by
  decide +kernel

example : (all.filter (·.mnemonic == "mov")).map (·.opcode) = [0x35, 0x45, 0x55] := by
  decide +kernel

/-! ## Refusal -/

/-- Why a form does not take its operands: there are too many or too few, or else the
first slot, counted from one, whose operand lacks a value or does not fit. -/
inductive Refuses (f : Form) (ops : List Operand) : Mismatch → Prop where
  | count (h : ops.length ≠ f.modes.length) :
    f.Refuses ops (.operandCount f.modes.length ops.length)
  | value {front behind : List Slot} {s : Slot} (hlength : ops.length = f.modes.length)
    (hslots : f.slots ops = front ++ s :: behind)
    (hfront : ∀ t ∈ front, t.IsFilled ∧ t.2.fits t.1 = true)
    (htakes : s.1.takesValue = true) (hvalue : s.2.value = none) :
    f.Refuses ops (.noValue (front.length + 1))
  | operand {front behind : List Slot} {s : Slot} (hlength : ops.length = f.modes.length)
    (hslots : f.slots ops = front ++ s :: behind)
    (hfront : ∀ t ∈ front, t.IsFilled ∧ t.2.fits t.1 = true)
    (hfilled : s.IsFilled) (hfits : s.2.fits s.1 = false) :
    f.Refuses ops (.doesNotFit (front.length + 1) s.2 s.1)

/-- What is wrong with the operand of one slot. -/
theorem checkSlot_error {position : Nat} {s : Slot} {cause : Mismatch}
    (h : checkSlot position s.1 s.2 = .error cause) :
    (s.1.takesValue = true ∧ s.2.value = none ∧ cause = .noValue position) ∨
      (s.IsFilled ∧ s.2.fits s.1 = false ∧ cause = .doesNotFit position s.2 s.1) := by
  unfold checkSlot at h
  split at h
  · next hmissing =>
    rw [Bool.and_eq_true, Option.isNone_iff_eq_none] at hmissing
    exact Or.inl ⟨hmissing.1, hmissing.2, (Except.error.inj h).symm⟩
  · next hpresent =>
    split at h
    · next hfits =>
      refine Or.inr ⟨fun htakes => ?_, by simpa using hfits, (Except.error.inj h).symm⟩
      rw [htakes, Bool.true_and, Option.isNone_iff_eq_none] at hpresent
      exact Option.isSome_iff_ne_none.mpr hpresent
    · cases h

/-- The slots are checked in order, up to the first at which something is wrong. -/
theorem checkSlots_error {cause : Mismatch} :
    ∀ {slots : List Slot} {position : Nat}, checkSlots position slots = .error cause →
      ∃ front s behind, slots = front ++ s :: behind ∧
        (∀ t ∈ front, t.IsFilled ∧ t.2.fits t.1 = true) ∧
        checkSlot (position + front.length) s.1 s.2 = .error cause := by
  intro slots
  induction slots with
  | nil =>
    intro position h
    cases h
  | cons s slots ih =>
    intro position h
    rw [checkSlots] at h
    cases hs : checkSlot position s.1 s.2 with
    | error cause' =>
      rw [hs] at h
      obtain rfl : cause' = cause := Except.error.inj h
      exact ⟨[], s, slots, rfl, fun t ht => (List.not_mem_nil ht).elim, hs⟩
    | ok _ =>
      rw [hs] at h
      obtain ⟨front, t, behind, hslots, hfront, ht⟩ := ih h
      refine ⟨s :: front, t, behind, by rw [hslots, List.cons_append], ?_, ?_⟩
      · exact List.forall_mem_cons.mpr ⟨checkSlot_eq_ok_iff.mp hs, hfront⟩
      · rw [List.length_cons, Nat.add_comm front.length, ← Nat.add_assoc]
        exact ht

/-- The check of a form finds what it refuses the operands for. -/
theorem refuses_of_check {f : Form} {ops : List Operand} {cause : Mismatch}
    (h : f.check ops = .error cause) : f.Refuses ops cause := by
  unfold check at h
  split at h
  · next hcount =>
    obtain rfl := Except.error.inj h
    exact .count hcount
  · next hcount =>
    obtain ⟨front, s, behind, hslots, hfront, hs⟩ := checkSlots_error h
    rw [Nat.add_comm] at hs
    rcases checkSlot_error hs with ⟨htakes, hvalue, rfl⟩ | ⟨hfilled, hfits, rfl⟩
    · exact .value (not_not.mp hcount) hslots hfront htakes hvalue
    · exact .operand (not_not.mp hcount) hslots hfront hfilled hfits

theorem encode_of_check {f : Form} {ops : List Operand} {cause : Mismatch}
    (h : f.check ops = .error cause) :
    f.encode ops = .error (.noEncoding f.mnemonic cause) := by
  rw [encode, assemble, h]
  rfl

/-- A form of the table encodes its operands if they pass the check, and refuses them
otherwise. -/
theorem encode_cases {f : Form} (hf : f ∈ all) (ops : List Operand) :
    (f.check ops = .ok () ∧ ∃ e, f.encode ops = .ok e) ∨
      ∃ cause, f.check ops = .error cause ∧
        f.encode ops = .error (.noEncoding f.mnemonic cause) := by
  have hroom : f.length ≤ CodeBuffer.capacity := Nat.le_trans (length_le f hf) (by decide)
  cases hcheck : f.check ops with
  | ok _ => exact Or.inl ⟨rfl, exists_encode hroom hcheck⟩
  | error cause => exact Or.inr ⟨cause, rfl, encode_of_check hcheck⟩

/-! ## The encoding slot by slot -/

/-- The slots that take a value, in the order of their fields. -/
def valueSlots (f : Form) (ops : List Operand) : List Slot :=
  (f.emission (f.slots ops)).filter (·.1.takesValue)

/-- Where the field of the value slot with index `i` begins. -/
def fieldOffset (f : Form) (ops : List Operand) (i : Nat) : Nat :=
  offsetFrom f.opcodeWidth (f.valueSlots ops) i

/-- What an encoding of the operands in the form is. -/
structure IsEncodedAs (f : Form) (ops : List Operand) (e : Encoding) : Prop where
  /-- It is as long as the form. -/
  size : e.code.size = f.length
  /-- The opcode stands in front, moved on if there is a constant for the bit number. -/
  moved : ∀ n op k, (Mode.bit n, op) ∈ f.slots ops → op.value = some (.const k) →
    0 ≤ k → k ≤ 7 → e.code.toList.take f.opcodeWidth =
      (bigEndian f.opcodeWidth f.opcode.toNat).modify (f.opcodeWidth - 1)
        fun b => UInt8.ofInt (b.toNat + 2 * (k - n.val))
  /-- Without such a constant it stands there as it is. -/
  kept : (∀ n op k, (Mode.bit n, op) ∈ f.slots ops → op.value = some (.const k) →
      ¬(0 ≤ k ∧ k ≤ 7)) →
    e.code.toList.take f.opcodeWidth = bigEndian f.opcodeWidth f.opcode.toNat
  /-- The fields follow it in their order. -/
  fields : e.code.toList.drop f.opcodeWidth = (f.valueSlots ops).flatMap Slot.field
  /-- Each of them stands at its own place. -/
  placed : ∀ i s, (f.valueSlots ops)[i]? = some s →
    (e.code.toList.drop (f.fieldOffset ops i)).take s.1.width = s.field
  /-- The order is that of the operands, but for `mov`. -/
  order : f.emission (f.slots ops) =
    if f.mnemonic = "mov" then (f.slots ops).reverse else f.slots ops
  /-- There is a note for every constant out of range. -/
  diagnostics : e.diagnostics = (f.valueSlots ops).flatMap Slot.notes
  /-- Each slot has a kind of relocation, -/
  relocatable : ∀ s ∈ f.valueSlots ops, s.1.relocation?.isSome = true
  /-- and there is a request for every symbol. -/
  relocations : e.relocations = (f.valueSlots ops).zipIdx.flatMap fun (s, i) =>
    s.requests (f.opcodeWidth - 1) (f.fieldOffset ops i)

theorem mem_valueSlots {f : Form} {ops : List Operand} {s : Slot} :
    s ∈ f.valueSlots ops ↔ s ∈ f.slots ops ∧ s.1.takesValue = true := by
  rw [valueSlots, List.mem_filter, f.mem_emission]

/-! ## The opcode in the layout -/

/-- The opcode, as far as constants for the bit number move it on. -/
def movedOpcode (f : Form) (ops : List Operand) : List UInt8 :=
  (bigEndian f.opcodeWidth f.opcode.toNat).modify (f.opcodeWidth - 1)
    (· + 2 * UInt8.ofInt ((f.slots ops).map Slot.shift).sum)

@[simp] theorem length_movedOpcode (f : Form) (ops : List Operand) :
    (f.movedOpcode ops).length = f.opcodeWidth := by
  rw [movedOpcode, List.length_modify, length_bigEndian]

/-- The fields of a layout are those of the slots that take a value. -/
theorem layout_eq (f : Form) (ops : List Operand) :
    f.layout ops = f.movedOpcode ops ++ ((f.valueSlots ops).map Slot.field).flatten := by
  rw [layout, movedOpcode, opcodeBytes_eq_bigEndian, ← List.flatMap_def, ← List.flatMap_def,
    valueSlots, flatMap_valueSlots fun s h => (Slot.parts_of_not_takesValue h).1]

/-- A byte that is moved on is the byte of the sum. -/
theorem add_ofInt (v : Int) :
    (fun b : UInt8 => b + 2 * UInt8.ofInt v) = fun b => UInt8.ofInt (b.toNat + 2 * v) := by
  funext b
  apply UInt8.toNat_inj.mp
  have hv := toNat_ofInt v
  have hb := toNat_ofInt (b.toNat + 2 * v)
  rw [UInt8.toNat_add, UInt8.toNat_mul]
  show (_ + 2 * _ % 2 ^ 8) % 2 ^ 8 = _
  omega

/-- A constant for the bit number moves the opcode on from that of the form. -/
theorem movedOpcode_of_const {f : Form} (hf : f ∈ all) {ops : List Operand}
    (hlength : ops.length = f.modes.length) {n : Fin 8} {op : Operand} {k : Int}
    (hmem : (Mode.bit n, op) ∈ f.slots ops) (hv : op.value = some (.const k)) (hleast : 0 ≤ k)
    (hgreatest : k ≤ 7) :
    f.movedOpcode ops = (bigEndian f.opcodeWidth f.opcode.toNat).modify (f.opcodeWidth - 1)
      fun b => UInt8.ofInt (b.toNat + 2 * (k - n.val)) := by
  have hone := bit_slots f hf
  rw [← modes_eq_map_slots hlength] at hone
  have hshift : Slot.shift (.bit n, op) = k - n.val := Slot.shift_of_bit rfl hv hleast hgreatest
  rw [movedOpcode, sum_shift_of_mem hone hmem rfl, hshift, add_ofInt]

/-- Without one the opcode stays. -/
theorem movedOpcode_of_no_const {f : Form} {ops : List Operand}
    (h : ∀ n op k, (Mode.bit n, op) ∈ f.slots ops → op.value = some (.const k) →
      ¬(0 ≤ k ∧ k ≤ 7)) : f.movedOpcode ops = bigEndian f.opcodeWidth f.opcode.toNat := by
  have hsum : ((f.slots ops).map Slot.shift).sum = 0 := by
    refine sum_shift_eq_zero fun s hs => Slot.shift_eq_zero fun n k hbit hv => ?_
    have hmode : s.1 = .bit n := by
      cases hm : s.1 <;> rw [hm] at hbit <;> first | rw [Option.some.inj hbit] | cases hbit
    exact h n s.2 k (hmode ▸ hs) hv
  rw [movedOpcode, hsum, modify_shift_zero]

/-- What has the layout of operands that pass the check is encoded slot by slot. -/
theorem isEncodedAs_of_hasLayout {f : Form} (hf : f ∈ all) {ops : List Operand} {e : Encoding}
    (hcheck : f.check ops = .ok ()) (he : f.HasLayout ops e) : f.IsEncodedAs ops e := by
  obtain ⟨hlength, hslots⟩ := check_eq_ok_iff.mp hcheck
  have hfilled : ∀ s ∈ f.valueSlots ops, s.IsFilled := fun s hs =>
    (hslots s (mem_valueSlots.mp hs).1).1
  have hcode := he.code.trans (f.layout_eq ops)
  have hopcode := f.length_movedOpcode ops
  refine { size := ?size, moved := ?moved, kept := ?kept, fields := ?fields, placed := ?placed,
           order := ?order, diagnostics := ?diagnostics, relocatable := ?relocatable,
           relocations := ?relocations }
  case size =>
    rw [CodeBuffer.size, he.code, length_layout hlength fun s hs => (hslots s hs).1]
  case moved =>
    intro n op k hmem hv hleast hgreatest
    rw [hcode, List.take_left' hopcode, movedOpcode_of_const hf hlength hmem hv hleast hgreatest]
  case kept =>
    intro hnone
    rw [hcode, List.take_left' hopcode, movedOpcode_of_no_const hnone]
  case fields => rw [hcode, List.drop_left' hopcode, List.flatMap_def]
  case placed =>
    intro i s hs
    have hplace := take_drop_flatten_fields (f.movedOpcode ops) hfilled hs
    rw [hopcode, ← hcode] at hplace
    exact hplace
  case order =>
    rw [emission]
    by_cases hmov : f.mnemonic = "mov"
    · rw [if_pos hmov, if_pos ((reversed_iff f hf).mpr hmov)]
    · rw [if_neg hmov, if_neg fun h => hmov ((reversed_iff f hf).mp h)]
  case diagnostics =>
    rw [he.diagnostics, valueSlots,
      flatMap_valueSlots fun s h => (Slot.parts_of_not_takesValue h).2.1]
  case relocatable =>
    intro s hs
    rw [Mode.isSome_relocation?]
    exact (mem_valueSlots.mp hs).2
  case relocations =>
    rw [he.relocations, ← requestsFrom_valueSlots]
    exact requestsFrom_eq_flatMap _ _ hfilled

/-- **Encoding is exact.** A form of the table refuses operands exactly if there are too
many or too few, if one lacks the value that its slot takes, or if one does not fit its
slot, and it says which of these it is. All others are encoded: in as many bytes as the form
has, the opcode with the bit number in front and the fields behind it in their order, with
a note for every constant out of range and a request for every symbol. Only slots that
take a value count; what an operand says in another slot is not looked at. -/
theorem encode_exact {f : Form} (hf : f ∈ all) (ops : List Operand) :
    if ops.length ≠ f.modes.length ∨
        (∃ s ∈ f.slots ops, s.1.takesValue = true ∧ s.2.value = none) ∨
        ∃ s ∈ f.slots ops, s.2.fits s.1 = false then
      ∃ cause, f.encode ops = .error (.noEncoding f.mnemonic cause) ∧ f.Refuses ops cause
    else ∃ e, f.encode ops = .ok e ∧ f.IsEncodedAs ops e := by
  rcases encode_cases hf ops with ⟨hcheck, e, he⟩ | ⟨cause, hcheck, hencode⟩
  · obtain ⟨hlength, hslots⟩ := check_eq_ok_iff.mp hcheck
    rw [if_neg]
    · exact ⟨e, he, isEncodedAs_of_hasLayout hf hcheck (hasLayout_of_encode he).2⟩
    · rintro (hcount | ⟨s, hs, htakes, hvalue⟩ | ⟨s, hs, hfits⟩)
      · exact hcount hlength
      · exact Option.isSome_iff_ne_none.mp ((hslots s hs).1 htakes) hvalue
      · exact Bool.false_ne_true (hfits.symm.trans (hslots s hs).2)
  · have hrefuses := refuses_of_check hcheck
    rw [if_pos]
    · exact ⟨cause, hencode, hrefuses⟩
    · cases hrefuses with
      | count hcount => exact Or.inl hcount
      | value _ hslots _ htakes hvalue =>
        have hmem := hslots ▸ List.mem_append_right _ List.mem_cons_self
        exact Or.inr (Or.inl ⟨_, hmem, htakes, hvalue⟩)
      | operand _ hslots _ _ hfits =>
        exact Or.inr (Or.inr ⟨_, hslots ▸ List.mem_append_right _ List.mem_cons_self, hfits⟩)

/-- The immediate of `mov` stands in front of the address. Too large, it is cut to its
field and noted, and the filler is where the request says. -/
theorem encode_mov :
    (⟨"mov", [.longMem, .byte], 0x35⟩ : Form) ∈ all ∧
      ∃ e, (⟨"mov", [.longMem, .byte], 0x35⟩ : Form).encode
          [.symbol "port", .immediate 0x1FF] = .ok e ∧
        e.code.toList = [0x35, 0xFF, 0xAA, 0xAA] ∧
        e.relocations = [⟨2, .abs16, "port", 0, .nowhere⟩] ∧
        e.diagnostics = [.outOfRange 0x1FF (-128) 255 .nowhere] := by
  have hmem : (⟨"mov", [.longMem, .byte], 0x35⟩ : Form) ∈ all := by decide +kernel
  have hexact := encode_exact hmem [.symbol "port", .immediate 0x1FF]
  rw [if_neg (by decide)] at hexact
  obtain ⟨e, he, hencoded⟩ := hexact
  refine ⟨hmem, e, he, ?_, ?_, ?_⟩
  · rw [← List.take_append_drop 1 e.code.toList]
    refine congrArg₂ (· ++ ·) (hencoded.kept ?_) (hencoded.fields.trans (by decide))
    intro n op k hs
    simp [slots] at hs
  · exact hencoded.relocations.trans (by decide)
  · exact hencoded.diagnostics.trans (by decide)

end Form

end Stm8
