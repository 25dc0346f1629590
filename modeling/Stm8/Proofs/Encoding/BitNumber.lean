import Stm8.Proofs.Encoding.Layout

/-!
# Bit numbers in the opcode

A constant in a bit slot does not get a field but selects another form: the one
for that bit number (`Form.filled`). The layout of an encoding speaks of an
opcode whose last byte has been moved on. This module shows that the moved bytes
are the opcode of the filled form (`opcodeBytes_filled`), and that the table has a
form with that opcode and the slots of the filled form (`exists_first_filled`).
-/

namespace Stm8

namespace Form

/-- The bit number that the operands select. -/
def chosenBit? (f : Form) (ops : List Operand) : Option (Fin 8) :=
  (f.slots ops).findSome? Slot.bit?

/-- The form that the operands select by their bit number; the form itself if they
select none. -/
def filled (f : Form) (ops : List Operand) : Form :=
  match f.chosenBit? ops with
  | some k => f.withBit k
  | none => f

/-! ## The first form with an opcode -/

/-- The form that is found under an opcode is in the table and has that opcode. -/
theorem mem_of_withOpcode? {k : UInt16} {g : Form} (h : catalog.withOpcode? k = some g) :
    g ∈ all ∧ g.opcode = k := by
  rw [withOpcode?_catalog] at h
  exact ⟨List.mem_of_find?_eq_some h, by simpa using List.find?_some h⟩

/-- Every form is found under its opcode, or else one with the same slots. -/
theorem exists_first {f : Form} (hf : f ∈ all) :
    ∃ g, catalog.withOpcode? f.opcode = some g ∧ g.modes = f.modes := by
  have h := first_modes f hf
  rw [Option.map_eq_some_iff] at h
  exact h

/-! ## Moving on from bit to bit -/

/-- The slots of the form for another bit number. -/
theorem modes_withBit (f : Form) (k : Fin 8) :
    (f.withBit k).modes = f.modes.map (Mode.withBit k) := by
  unfold withBit
  cases hbit : f.bit? with
  | some n => rfl
  | none =>
    refine (List.map_id f.modes).symm.trans (List.map_congr_left fun m hm => ?_)
    have hnone := List.findSome?_eq_none_iff.mp hbit m hm
    cases m <;> first | rfl | cases hnone

/-- The low byte of an opcode. -/
theorem toNat_low (k : UInt16) : k.toUInt8.toNat = k.toNat % 256 := by
  simp

/-- The page byte of an opcode. -/
theorem toNat_high (k : UInt16) : (k >>> 8).toUInt8.toNat = k.toNat / 256 := by
  have := k.toNat_lt
  simp [Nat.shiftRight_eq_div_pow]
  omega

/-- The last opcode byte of the form for bit `k`. -/
theorem low_withBit {f : Form} (hf : f ∈ all) {n : Fin 8} (hn : f.bit? = some n) (k : Fin 8) :
    (f.withBit k).opcode.toUInt8 = f.opcode.toUInt8 + 2 * UInt8.ofInt ((k.val : Int) - n.val) := by
  obtain ⟨-, -, hsum⟩ := first_withBit f hf (by rw [hn]; rfl) k
  rw [hn, Option.getD_some] at hsum
  have hk := k.isLt
  have hn8 := n.isLt
  have hofInt := toNat_ofInt ((k.val : Int) - n.val)
  apply UInt8.toNat_inj.mp
  rw [toNat_low, UInt8.toNat_add, UInt8.toNat_mul, toNat_low]
  show _ = (_ + 2 * _ % 2 ^ 8) % 2 ^ 8
  omega

/-- The opcode of the form for bit `k` as bytes. -/
theorem opcodeBytes_withBit {f : Form} (hf : f ∈ all) {n : Fin 8} (hn : f.bit? = some n)
    (k : Fin 8) :
    (f.withBit k).opcodeBytes =
      f.opcodeBytes.modify (f.opcodeWidth - 1)
        (· + 2 * UInt8.ofInt ((k.val : Int) - n.val)) := by
  obtain ⟨-, hpage, -⟩ := first_withBit f hf (by rw [hn]; rfl) k
  have hlow := low_withBit hf hn k
  have hwidth := f.length_opcodeBytes
  rcases f.opcodeBytes_eq with ⟨hlt, hb⟩ | ⟨hge, hb⟩
  · rcases (f.withBit k).opcodeBytes_eq with ⟨-, hb'⟩ | ⟨hge', -⟩
    · rw [hb] at hwidth
      rw [hb', hb, hlow, ← hwidth]
      rfl
    · omega
  · rcases (f.withBit k).opcodeBytes_eq with ⟨hlt', -⟩ | ⟨-, hb'⟩
    · omega
    · rw [hb] at hwidth
      -- both opcodes are on the same page
      have hhigh : ((f.withBit k).opcode >>> 8).toUInt8 = (f.opcode >>> 8).toUInt8 := by
        apply UInt8.toNat_inj.mp
        rw [toNat_high, toNat_high, hpage]
      rw [hb', hb, hlow, hhigh, ← hwidth]
      rfl

/-! ## At most one bit slot -/

/-- Slots without a bit number move nothing and select nothing. -/
theorem shift_of_no_bits {slots : List Slot}
    (h : (slots.map Prod.fst).filterMap Mode.bit? = []) :
    (slots.map Slot.shift).sum = 0 ∧ slots.findSome? Slot.bit? = none := by
  induction slots with
  | nil => exact ⟨rfl, rfl⟩
  | cons s slots ih =>
    rw [List.map_cons, List.filterMap_cons] at h
    cases hs : s.1.bit? with
    | some n =>
      rw [hs] at h
      cases h
    | none =>
      rw [hs] at h
      obtain ⟨hsum, hnone⟩ := ih h
      constructor
      · rw [List.map_cons, List.sum_cons, Slot.shift_of_not_bit hs, hsum]
        rfl
      · rw [List.findSome?_cons, hnone]
        simp [Slot.bit?, hs]

/-- One slot at most moves the opcode on: from its bit number to the selected one. -/
theorem sum_shift (slots : List Slot)
    (h : ((slots.map Prod.fst).filterMap Mode.bit?).length ≤ 1) :
    (slots.map Slot.shift).sum =
      match (slots.map Prod.fst).findSome? Mode.bit?, slots.findSome? Slot.bit? with
      | some n, some k => (k.val : Int) - n.val
      | _, _ => 0 := by
  induction slots with
  | nil => rfl
  | cons s slots ih =>
    rw [List.map_cons, List.filterMap_cons] at h
    cases hs : s.1.bit? with
    | none =>
      rw [hs] at h
      have hb : s.bit? = none := by simp [Slot.bit?, hs]
      rw [List.map_cons, List.sum_cons, Slot.shift_of_not_bit hs, List.map_cons,
        List.findSome?_cons, List.findSome?_cons, hs, hb, Int.zero_add]
      exact ih h
    | some n =>
      rw [hs, List.length_cons] at h
      have hrest : (slots.map Prod.fst).filterMap Mode.bit? = [] :=
        List.length_eq_zero_iff.mp (by omega)
      obtain ⟨hsum, hnone⟩ := shift_of_no_bits hrest
      rw [List.map_cons, List.sum_cons, hsum, Int.add_zero, List.map_cons,
        List.findSome?_cons, List.findSome?_cons, hs, hnone]
      -- the one bit slot; those behind it are none
      unfold Slot.shift
      rw [hs]
      cases s.bit? <;> rfl

/-! ## The filled form -/

theorem modes_eq_map_slots {f : Form} {ops : List Operand} (h : ops.length = f.modes.length) :
    (f.slots ops).map Prod.fst = f.modes :=
  List.map_fst_zip (by omega)

/-- A bit number can only be selected where there is a slot for it. -/
theorem isSome_bit?_of_chosenBit? {f : Form} {ops : List Operand} {k : Fin 8}
    (h : f.chosenBit? ops = some k) : f.bit?.isSome = true := by
  obtain ⟨s, hs, hk⟩ := List.exists_of_findSome?_eq_some h
  have hmode : s.1 ∈ f.modes := (List.of_mem_zip hs).1
  rw [bit?, List.isSome_findSome?, List.any_eq_true]
  refine ⟨s.1, hmode, ?_⟩
  unfold Slot.bit? at hk
  cases hm : s.1.bit? with
  | none =>
    rw [hm] at hk
    cases hk
  | some n => rfl

/-- The operands either select no bit number and move nothing, or select one, and the
opcode moves on to it. -/
theorem filled_cases {f : Form} (hf : f ∈ all) {ops : List Operand}
    (h : ops.length = f.modes.length) :
    (f.filled ops = f ∧ ((f.slots ops).map Slot.shift).sum = 0) ∨
      ∃ n k, f.bit? = some n ∧ f.filled ops = f.withBit k ∧
        ((f.slots ops).map Slot.shift).sum = (k.val : Int) - n.val := by
  have hsum := sum_shift (f.slots ops)
    (by rw [modes_eq_map_slots h]; exact bit_slots f hf)
  rw [modes_eq_map_slots h] at hsum
  cases hk : f.chosenBit? ops with
  | none =>
    rw [show (f.slots ops).findSome? Slot.bit? = none from hk] at hsum
    refine Or.inl ⟨by rw [filled, hk], ?_⟩
    rw [hsum]
    cases f.modes.findSome? Mode.bit? <;> rfl
  | some k =>
    obtain ⟨n, hn⟩ := Option.isSome_iff_exists.mp (isSome_bit?_of_chosenBit? hk)
    rw [show (f.slots ops).findSome? Slot.bit? = some k from hk,
      show f.modes.findSome? Mode.bit? = some n from hn] at hsum
    exact Or.inr ⟨n, k, hn, by rw [filled, hk], hsum⟩

/-- The bytes of the filled form's opcode are those that the encoding puts in
front. -/
theorem opcodeBytes_filled {f : Form} (hf : f ∈ all) {ops : List Operand}
    (h : ops.length = f.modes.length) :
    (f.filled ops).opcodeBytes =
      f.opcodeBytes.modify (f.opcodeWidth - 1)
        (· + 2 * UInt8.ofInt ((f.slots ops).map Slot.shift).sum) := by
  rcases filled_cases hf h with ⟨hfilled, hsum⟩ | ⟨n, k, hn, hfilled, hsum⟩
  · rw [hfilled, hsum, modify_shift_zero]
  · rw [hfilled, hsum]
    exact opcodeBytes_withBit hf hn k

/-- The opcode of the filled form is two further for each bit, without a carry. -/
theorem toNat_opcode_filled {f : Form} (hf : f ∈ all) {ops : List Operand}
    (h : ops.length = f.modes.length) :
    ((f.filled ops).opcode.toNat : Int) =
      f.opcode.toNat + 2 * ((f.slots ops).map Slot.shift).sum := by
  rcases filled_cases hf h with ⟨hfilled, hsum⟩ | ⟨n, k, hn, hfilled, hsum⟩
  · rw [hfilled, hsum]
    omega
  · obtain ⟨-, -, hopcode⟩ := first_withBit f hf (by rw [hn]; rfl) k
    rw [hn, Option.getD_some] at hopcode
    rw [hfilled, hsum]
    omega

/-- Selecting a bit number changes nothing about the slots but the bit number. -/
theorem map_filled {α : Type} {p : Mode → α} (hp : ∀ k m, p (Mode.withBit k m) = p m) (f : Form)
    (ops : List Operand) : (f.filled ops).modes.map p = f.modes.map p := by
  unfold filled withBit
  cases f.chosenBit? ops with
  | none => rfl
  | some k =>
    cases f.bit? with
    | none => rfl
    | some n =>
      rw [List.map_map]
      exact List.map_congr_left fun m _ => hp k m

/-- Selecting a bit number changes neither the width of a slot nor their number. -/
theorem map_width_filled (f : Form) (ops : List Operand) :
    (f.filled ops).modes.map Mode.width = f.modes.map Mode.width :=
  map_filled (fun _ m => by cases m <;> rfl) f ops

/-- The form of another bit number is a form for a bit number. -/
theorem isSome_bit?_withBit {f : Form} (k : Fin 8) (h : f.bit?.isSome = true) :
    (f.withBit k).bit?.isSome = true := by
  obtain ⟨n, hn⟩ := Option.isSome_iff_exists.mp h
  unfold withBit
  rw [hn]
  rw [bit?, List.isSome_findSome?, List.any_eq_true] at h ⊢
  obtain ⟨m, hm, hbit⟩ := h
  refine ⟨m.withBit k, List.mem_map_of_mem hm, ?_⟩
  cases m <;> first | rfl | cases hbit

/-- The table has a form with the opcode and the slots of the filled form. -/
theorem exists_first_filled {f : Form} (hf : f ∈ all) {ops : List Operand}
    (h : ops.length = f.modes.length) :
    ∃ g, catalog.withOpcode? (f.filled ops).opcode = some g ∧ g.modes = (f.filled ops).modes := by
  rcases filled_cases hf h with ⟨hfilled, -⟩ | ⟨n, k, hn, hfilled, -⟩
  · rw [hfilled]
    exact exists_first hf
  · have hfirst := (first_withBit f hf (by rw [hn]; rfl) k).1
    rw [Option.map_eq_some_iff] at hfirst
    rw [hfilled]
    exact hfirst

/-- That form stores its fields in the same order. -/
theorem reversed_of_first_filled {f g : Form} (hf : f ∈ all) {ops : List Operand}
    (h : ops.length = f.modes.length)
    (hg : catalog.withOpcode? (f.filled ops).opcode = some g)
    (hmodes : g.modes = (f.filled ops).modes) : g.reversed = f.reversed := by
  obtain ⟨hmem, hopcode⟩ := mem_of_withOpcode? hg
  rcases filled_cases hf h with ⟨hfilled, -⟩ | ⟨n, k, hn, hfilled, -⟩
  · unfold reversed
    rw [hopcode, hfilled]
  · have hbit : f.bit?.isSome = true := by
      rw [hn]
      rfl
    have hgbit : g.bit?.isSome = true := by
      rw [bit?, hmodes, hfilled]
      exact isSome_bit?_withBit k hbit
    rw [not_reversed_of_bit f hf hbit, not_reversed_of_bit g hmem hgbit]

end Form

/-! ## Constants for the bit number -/

/-- A constant moves the opcode on by as much as it is greater than the bit number of the
slot. -/
theorem Slot.shift_of_bit {s : Slot} {n : Fin 8} {k : Int} (hbit : s.1.bit? = some n)
    (hv : s.2.value = some (.const k)) (hleast : 0 ≤ k) (hgreatest : k ≤ 7) :
    s.shift = k - n.val := by
  have hselected : s.bit? = some ⟨k.toNat, by omega⟩ := by
    unfold bit?
    rw [hbit, hv]
    exact dif_pos ⟨hleast, hgreatest⟩
  unfold shift
  rw [hbit, hselected]
  show ((k.toNat : Nat) : Int) - n.val = _
  rw [Int.toNat_of_nonneg hleast]

/-- What is no bit number does not move the opcode on. -/
theorem Slot.shift_eq_zero {s : Slot}
    (h : ∀ n k, s.1.bit? = some n → s.2.value = some (.const k) → ¬(0 ≤ k ∧ k ≤ 7)) :
    s.shift = 0 := by
  cases hbit : s.1.bit? with
  | none => exact shift_of_not_bit hbit
  | some n =>
    have hnone : s.bit? = none := by
      unfold bit?
      rw [hbit]
      cases hv : s.2.value with
      | none => rfl
      | some value =>
        cases value with
        | symbol r => rfl
        | const k => exact dif_neg (h n k hbit hv)
    unfold shift
    rw [hnone]
    cases s.1.bit? <;> rfl

/-- The slot for the bit number is the only one to move the opcode on. -/
theorem sum_shift_of_mem {slots : List Slot}
    (hone : ((slots.map Prod.fst).filterMap Mode.bit?).length ≤ 1) {s : Slot} (hs : s ∈ slots)
    (hbit : s.1.bit?.isSome = true) : (slots.map Slot.shift).sum = s.shift := by
  obtain ⟨front, behind, rfl⟩ := List.append_of_mem hs
  obtain ⟨n, hn⟩ := Option.isSome_iff_exists.mp hbit
  rw [List.map_append, List.map_cons, List.filterMap_append, List.filterMap_cons, hn,
    List.length_append, List.length_cons] at hone
  have hfront := (Form.shift_of_no_bits (List.length_eq_zero_iff.mp (by omega :
    ((front.map Prod.fst).filterMap Mode.bit?).length = 0))).1
  have hbehind := (Form.shift_of_no_bits (List.length_eq_zero_iff.mp (by omega :
    ((behind.map Prod.fst).filterMap Mode.bit?).length = 0))).1
  rw [List.map_append, List.sum_append, List.map_cons, List.sum_cons, hfront, hbehind]
  omega

theorem sum_shift_eq_zero {slots : List Slot} (h : ∀ s ∈ slots, s.shift = 0) :
    (slots.map Slot.shift).sum = 0 := by
  induction slots with
  | nil => rfl
  | cons s slots ih =>
    rw [List.forall_mem_cons] at h
    rw [List.map_cons, List.sum_cons, h.1, ih h.2, Int.add_zero]

end Stm8
