import Stm8.Instruction.Printer
import Stm8.Proofs.BigEndian
import Stm8.Proofs.Encoding.Settling
import Stm8.Proofs.Instruction.RoundTrip

/-!
# What is read back of a patched instruction

An instruction whose requests were carried out is decoded to the numbers that its
operands stand for once symbols have values:

> `readsBack_of_patch`: the patched bytes are one instruction. Its opcode is that of the
> form with the bit number in it, and each of its slots says about its operand what it
> can say (`Slot.IsReadAs`).
-/

namespace Stm8

open Relocation (patch)

/-- What a slot of the decoded instruction `i`, with `n` in its field, says about the
operand that it was assembled from. -/
structure Slot.IsReadAs (value? : String → Option Int) (i : Instruction) (s : Slot) (n : Nat) :
    Prop where
  /-- A register slot names the register. -/
  register : ∀ r, s.1 = .reg r → s.2.kind = .register r
  /-- A bit slot has the number as its bit number. -/
  bit : ∀ k : Fin 8, s.1 = .bit k → s.2.number? value? = some (k.val : Int)
  /-- A field holds the number modulo its size. -/
  absolute : s.1.isAbsolute = true →
    ∃ v, s.2.number? value? = some v ∧ (n : Int) = v % 2 ^ (8 * s.1.width)
  /-- A displacement is the constant, or it leads to the symbol. -/
  relative : s.1 = .relative →
    (∃ d, s.2.value = some (.const d) ∧ readSigned (UInt8.ofNat n) = d) ∨
      ∃ r v, s.2.value = some (.symbol r) ∧ s.2.number? value? = some v ∧
        i.target? = some (UInt32.ofInt (v % 2 ^ 24))

/-- Whether the instruction `i` is what the operands in form `f` were assembled to. -/
def Form.IsReadAs (value? : String → Option Int) (i : Instruction) (f : Form)
    (ops : List Operand) : Prop :=
  ∃ (g : Form) (k : Fin 8) (fields : List Nat),
    i.content = .known g fields ∧
      Form.all.find? (·.opcode == (f.withBit k).opcode) = some g ∧
      g.modes = (f.withBit k).modes ∧ g.modes.length = ops.length ∧
      fields.length = ops.length ∧
      ∀ (j : Nat) (m : Mode) (op : Operand) (n : Nat),
        g.modes[j]? = some m → ops[j]? = some op → fields[j]? = some n →
        Slot.IsReadAs value? i (m, op) n

/-! ## Numbers in fields -/

theorem readBigEndian_field_const {m : Mode} (v : Int) :
    (readBigEndian (bigEndian m.width v) : Int) = v % 2 ^ (8 * m.width) := by
  rw [readBigEndian_bigEndian, Int.pow_mul]
  rfl

/-! ## The target of a branch -/

/-- The one displacement of an instruction says where it leads. -/
theorem Instruction.target?_eq {i : Instruction} {g : Form} {fields : List Nat} (hg : g ∈ Form.all)
    (hcontent : i.content = .known g fields) (hlength : fields.length = g.modes.length) {n : Nat}
    (hslot : (Mode.relative, n) ∈ g.modes.zip fields) :
    i.target? = some (i.targetOf (readSigned (UInt8.ofNat n))) := by
  have hslots : i.slots = g.modes.zip fields := by
    rw [slots, hcontent]
  obtain ⟨front, behind, hsplit⟩ := List.append_of_mem hslot
  have hmodes : g.modes = front.map Prod.fst ++ Mode.relative :: behind.map Prod.fst := by
    have hfst := @List.map_fst_zip Mode Nat g.modes fields (by omega)
    rw [hsplit, List.map_append, List.map_cons] at hfst
    exact hfst.symm
  have hmem : Mode.relative ∈ g.modes := by
    rw [hmodes]
    exact List.mem_append_right _ List.mem_cons_self
  obtain ⟨-, -, hlast⟩ := Form.relative_last g hg hmem
  rw [hmodes, List.dropLast_append_cons, List.mem_append, not_or] at hlast
  have hfind : i.slots.find? (·.1 == .relative) = some (.relative, n) := by
    rw [hslots, hsplit, List.find?_append, List.find?_cons]
    have hnone : front.find? (·.1 == Mode.relative) = none := by
      rw [List.find?_eq_none]
      intro x hx hmode
      exact hlast.1 (List.mem_map.mpr ⟨x, hx, beq_iff_eq.mp hmode⟩)
    rw [hnone]
    rfl
  rw [target?, hfind]
  rfl

/-! ## The bit number -/

namespace Form

/-- There is no other bit number beside the one that is selected. -/
theorem eq_of_selected {slots : List Slot}
    (hone : ((slots.map Prod.fst).filterMap Mode.bit?).length ≤ 1) {s : Slot} (hs : s ∈ slots)
    {j k : Fin 8} (hj : s.bit? = some j) (hk : slots.findSome? Slot.bit? = some k) : j = k := by
  induction slots with
  | nil => cases hs
  | cons t slots ih =>
    rw [List.map_cons, List.filterMap_cons] at hone
    rw [List.findSome?_cons] at hk
    cases ht : t.1.bit? with
    | none =>
      have hnone : t.bit? = none := by
        unfold Slot.bit?
        rw [ht]
      rw [ht] at hone
      rw [hnone] at hk
      rcases List.mem_cons.mp hs with rfl | hs
      · rw [hnone] at hj
        cases hj
      · exact ih hone hs hk
    | some n =>
      -- the slot is the one for the bit number, so that there is none behind it
      rw [ht, List.length_cons] at hone
      have hrest := (shift_of_no_bits (List.length_eq_zero_iff.mp (by omega :
        ((slots.map Prod.fst).filterMap Mode.bit?).length = 0))).2
      rcases List.mem_cons.mp hs with rfl | hs
      · rw [hj] at hk
        exact Option.some.inj hk
      · rw [List.findSome?_eq_none_iff.mp hrest s hs] at hj
        cases hj

/-- Operands that select a bit number wherever there is a slot for one fill the form with
one bit number. -/
theorem exists_filled_eq_withBit {f : Form} (hf : f ∈ all) {ops : List Operand}
    (hlength : ops.length = f.modes.length)
    (hbits : ∀ s ∈ f.slots ops, s.1.bit?.isSome = true → s.bit?.isSome = true) :
    ∃ k, f.filled ops = f.withBit k ∧
      ∀ s ∈ f.slots ops, s.1.bit?.isSome = true → s.bit? = some k := by
  cases hk : f.chosenBit? ops with
  | some k =>
    refine ⟨k, by rw [filled, hk], fun s hs hbit => ?_⟩
    obtain ⟨j, hj⟩ := Option.isSome_iff_exists.mp (hbits s hs hbit)
    have hone := bit_slots f hf
    rw [← modes_eq_map_slots hlength] at hone
    rw [hj, eq_of_selected hone hs hj hk]
  | none =>
    have hnone : ∀ s ∈ f.slots ops, ¬ s.1.bit?.isSome = true := by
      intro s hs hbit
      have hsome := hbits s hs hbit
      rw [List.findSome?_eq_none_iff.mp hk s hs] at hsome
      cases hsome
    -- a form without a bit number is the same for every bit number
    refine ⟨0, ?_, fun s hs hbit => absurd hbit (hnone s hs)⟩
    have hform : f.bit? = none := by
      rw [bit?, List.findSome?_eq_none_iff]
      intro m hm
      rw [← modes_eq_map_slots hlength] at hm
      obtain ⟨s, hs, rfl⟩ := List.mem_map.mp hm
      exact Option.not_isSome_iff_eq_none.mp (hnone s hs)
    rw [filled, hk, withBit, hform]

end Form

/-! ## Settled slots -/

section

variable {base : UInt32} {value? : String → Option Int} {f : Form} {ops : List Operand}
  {e : Encoding} {offset : Nat}

/-- Only a slot for bit number zero takes a symbol. -/
theorem Slot.zero_of_symbol {s : Slot} (hfits : s.2.fits s.1 = true) {n : Fin 8} {r : SymbolRef}
    (hbit : s.1.bit? = some n) (hv : s.2.value = some (.symbol r)) : n = 0 := by
  obtain ⟨m, op⟩ := s
  obtain rfl : m = .bit n := by
    cases m <;> first | cases hbit; rfl | cases hbit
  replace hv : op.value = some (.symbol r) := hv
  unfold Operand.fits at hfits
  rw [hv] at hfits
  unfold Operand.Kind.fits at hfits
  split at hfits <;> simp_all [Value.const?]

theorem Slot.inRange_of_notes {s : Slot} (hnotes : s.notes = []) (htakes : s.1.takesValue = true)
    {v : Int} (hv : s.2.value = some (.const v)) : s.1.range.1 ≤ v ∧ v ≤ s.1.range.2 := by
  unfold notes at hnotes
  rw [hv, htakes] at hnotes
  simp only [Bool.true_and] at hnotes
  split at hnotes
  · cases hnotes
  · next hrange =>
    rw [Bool.or_eq_true, decide_eq_true_iff, decide_eq_true_iff, not_or] at hrange
    exact ⟨Int.not_lt.mp hrange.1, Int.not_lt.mp hrange.2⟩

/-- Where a slot takes a value, there is a constant once symbols have values: the number
of the operand, or the distance to it. -/
theorem settled_value (hf : f ∈ Form.all) (he : f.encode ops = .ok e) (hnotes : e.diagnostics = [])
    (hnumbers : ∀ r ∈ e.relocations, ((r.shift offset).number? base value?).isSome = true)
    {x : Slot × Slot} (hx : x ∈ (f.slots ops).zip (f.slots (f.settled base value? offset ops)))
    (htakes : x.1.1.takesValue = true) :
    ∃ v, x.2.2.value = some (.const v) ∧ x.1.1.range.1 ≤ v ∧ v ≤ x.1.1.range.2 ∧
      (x.1.2.value = some (.const v) ∨
        ∃ r target, x.1.2.value = some (.symbol r) ∧ value? r.name = some target ∧
          v = Quantity.wrap (if x.1.1 = .relative then
              target + r.addend - (base.toNat + offset + f.length)
            else target + r.addend)) := by
  obtain ⟨hcheck, hlayout⟩ := Form.hasLayout_of_encode he
  obtain ⟨hlength, hslots⟩ := Form.check_eq_ok_iff.mp hcheck
  have hmem : x.1 ∈ f.slots ops := (List.of_mem_zip hx).1
  rw [hlayout.relocations] at hnumbers
  rw [hlayout.diagnostics, List.flatMap_eq_nil_iff] at hnotes
  rcases Form.settled_cases hf hlength (fun s hs => (hslots s hs).1) hnumbers hx with
    ⟨hkeep, hsymbol⟩ | ⟨r, target, v, hv, htarget, hconst, hleast, hgreatest, hvalue⟩
  · have hsome := (hslots x.1 hmem).1 htakes
    cases hv : x.1.2.value with
    | none =>
      rw [hv] at hsome
      cases hsome
    | some value =>
      cases value with
      | symbol r =>
        rw [hsymbol r hv] at htakes
        cases htakes
      | const v =>
        obtain ⟨hleast, hgreatest⟩ := Slot.inRange_of_notes
          (hnotes x.1 (f.mem_emission.mpr hmem)) htakes hv
        exact ⟨v, by rw [hkeep, hv], hleast, hgreatest, Or.inl rfl⟩
  · exact ⟨v, by rw [hconst], hleast, hgreatest, Or.inr ⟨r, target, hv, htarget, hvalue⟩⟩

/-- Every settled slot stands beside the slot that it was before. -/
theorem exists_pair (hlength : ops.length = f.modes.length) {t : Slot}
    (ht : t ∈ f.slots (f.settled base value? offset ops)) :
    ∃ s, (s, t) ∈ (f.slots ops).zip (f.slots (f.settled base value? offset ops)) := by
  have hcount := @Form.length_slots_settled base value? f offset ops hlength
  have hsnd : ((f.slots ops).zip (f.slots (f.settled base value? offset ops))).map Prod.snd =
      f.slots (f.settled base value? offset ops) :=
    List.map_snd_zip (Nat.le_of_eq hcount)
  rw [← hsnd] at ht
  obtain ⟨x, hx, rfl⟩ := List.mem_map.mp ht
  exact ⟨x.1, hx⟩

theorem Slot.bit?_of_const {s : Slot} {v : Int} (hbit : s.1.bit?.isSome = true)
    (hv : s.2.value = some (.const v)) (hleast : 0 ≤ v) (hgreatest : v ≤ 7) :
    ∃ k : Fin 8, s.bit? = some k ∧ (k.val : Int) = v := by
  obtain ⟨n, hn⟩ := Option.isSome_iff_exists.mp hbit
  refine ⟨⟨v.toNat, by omega⟩, ?_, Int.toNat_of_nonneg hleast⟩
  unfold bit?
  rw [hn, hv]
  exact dif_pos ⟨hleast, hgreatest⟩

theorem Mode.takesValue_of_bit? {m : Mode} (h : m.bit?.isSome = true) : m.takesValue = true := by
  rw [takesValue, h, Bool.or_true]

/-- Settled operands fill the form with one bit number, and the slot for it holds it. -/
theorem exists_withBit_settled (hf : f ∈ Form.all) (he : f.encode ops = .ok e)
    (hnotes : e.diagnostics = [])
    (hnumbers : ∀ r ∈ e.relocations, ((r.shift offset).number? base value?).isSome = true) :
    ∃ k : Fin 8, f.filled (f.settled base value? offset ops) = f.withBit k ∧
      ∀ t ∈ f.slots (f.settled base value? offset ops), ∀ v,
        t.1.bit?.isSome = true → t.2.value = some (.const v) → v = k.val := by
  have hlength := (Form.check_eq_ok_iff.mp (Form.hasLayout_of_encode he).1).1
  have hselects : ∀ t ∈ f.slots (f.settled base value? offset ops), t.1.bit?.isSome = true →
      ∃ v k, t.2.value = some (.const v) ∧ t.bit? = some k ∧ (k.val : Int) = v := by
    intro t ht hbit
    obtain ⟨s, hs⟩ := exists_pair hlength ht
    have hmode : t.1 = s.1 := (Form.settled_fst hlength hs).symm
    obtain ⟨n, hn⟩ := Option.isSome_iff_exists.mp hbit
    obtain ⟨v, hv, hleast, hgreatest, -⟩ := settled_value hf he hnotes hnumbers hs
      (by rw [← hmode]; exact Mode.takesValue_of_bit? hbit)
    rw [← hmode, Mode.range_of_bit? hn] at hleast hgreatest
    obtain ⟨k, hk, hkv⟩ := Slot.bit?_of_const hbit hv hleast hgreatest
    exact ⟨v, k, hv, hk, hkv⟩
  obtain ⟨k, hfilled, hk⟩ := Form.exists_filled_eq_withBit hf
    (@Form.length_settled base value? f offset ops hlength) fun t ht hbit => by
      obtain ⟨v, k, -, hk, -⟩ := hselects t ht hbit
      rw [hk]
      rfl
  refine ⟨k, hfilled, fun t ht v hbit hv => ?_⟩
  obtain ⟨v', k', hv', hk', hkv⟩ := hselects t ht hbit
  rw [hv] at hv'
  rw [hk t ht hbit] at hk'
  injection hv' with hv'
  injection hv' with hv'
  injection hk' with hk'
  rw [hv', ← hkv, hk']

theorem kind_of_fits_reg {m : Mode} {op : Operand} {r : Register} (hm : m = .reg r)
    (hfits : op.fits m = true) : op.kind = .register r := by
  subst hm
  unfold Operand.fits at hfits
  cases hkind : op.kind with
  | register r' =>
    rw [hkind] at hfits
    rw [beq_iff_eq.mp (show (r' == r) = true from hfits)]
  | _ =>
    rw [hkind] at hfits
    cases hfits

/-- The numbers of a slot are far from the ends of what 64 bits hold. -/
theorem Mode.range_small (m : Mode) :
    -0x4000000000000000 < m.range.1 ∧ m.range.2 < 0x4000000000000000 := by
  cases m with
  | bit n => exact (by decide : -0x4000000000000000 < (0 : Int) ∧ (7 : Int) < 0x4000000000000000)
  | reg r => exact (by decide : -0x4000000000000000 < (0 : Int) ∧ (0 : Int) < 0x4000000000000000)
  | _ => decide

/-- Whether the sum for a symbol is less than 2^64 away from the numbers that fields hold. -/
def Operand.IsTame (value? : String → Option Int) (op : Operand) : Prop :=
  ∀ r target, op.value = some (.symbol r) → value? r.name = some target →
    -0xC000000000000000 ≤ target + r.addend ∧ target + r.addend ≤ 0xC000000000000000

/-- What the decoded instruction says about an operand. -/
theorem isReadAs_slot {s t : Slot} {i : Instruction} {k : Fin 8}
    (hfits : s.2.fits s.1 = true) (htame : s.2.IsTame value?) (hmode : t.1 = s.1)
    (hvalue : s.1.takesValue = true →
      ∃ v, t.2.value = some (.const v) ∧ s.1.range.1 ≤ v ∧ v ≤ s.1.range.2 ∧
        (s.2.value = some (.const v) ∨
          ∃ r target, s.2.value = some (.symbol r) ∧ value? r.name = some target ∧
            v = Quantity.wrap (if s.1 = .relative then
                target + r.addend - (base.toNat + offset + f.length)
              else target + r.addend)))
    (hbit : ∀ v, t.1.bit?.isSome = true → t.2.value = some (.const v) → v = k.val)
    (htarget : s.1 = .relative →
      i.target? = some (i.targetOf (readSigned (UInt8.ofNat (readBigEndian t.field)))))
    (haddress : i.address = base + UInt32.ofNat offset) (hsize : i.size = f.length) :
    Slot.IsReadAs value? i (s.1.withBit k, s.2) (readBigEndian t.field) := by
  obtain ⟨m, op⟩ := s
  obtain ⟨m', op'⟩ := t
  obtain rfl : m' = m := hmode
  dsimp only at hfits htame hvalue hbit htarget ⊢
  -- in all slots but those for displacements stands the number of the operand
  have habsolute : m'.takesValue = true → m' ≠ .relative →
      ∃ v, op'.value = some (.const v) ∧ op.number? value? = some v := by
    intro htakes hrelative
    obtain ⟨v, hv, hleast, hgreatest, hop⟩ := hvalue htakes
    refine ⟨v, hv, ?_⟩
    unfold Operand.number?
    rcases hop with hop | ⟨r, target, hop, htarget, hsum⟩
    · rw [hop]
    · have hsmall := m'.range_small
      obtain ⟨hlow, hhigh⟩ := htame r target hop htarget
      rw [if_neg hrelative] at hsum
      -- a sum that wraps around would not come near the range of the slot
      rw [Quantity.wrap_of_small hlow hhigh (by omega) (by omega)] at hsum
      rw [hop, hsum]
      dsimp only
      rw [htarget]
      rfl
  constructor
  · intro r hm
    exact kind_of_fits_reg (by cases m' <;> first | exact hm | cases hm) hfits
  · intro k' hm
    obtain ⟨n, rfl, rfl⟩ : ∃ n, m' = .bit n ∧ k = k' := by
      cases m' with
      | bit n => exact ⟨n, rfl, Mode.bit.inj hm⟩
      | _ => cases hm
    obtain ⟨v, hv, hnumber⟩ := habsolute rfl (fun h => by cases h)
    rw [hnumber, hbit v rfl hv]
  · intro hm
    obtain ⟨hwithBit, htakes, hrelative⟩ :
        m'.withBit k = m' ∧ m'.takesValue = true ∧ m' ≠ .relative := by
      cases m' with
      | relative => exact absurd hm (by simp [Mode.withBit, Mode.isAbsolute])
      | _ => first | exact ⟨rfl, rfl, fun h => by cases h⟩ | cases hm
    obtain ⟨v, hv, hnumber⟩ := habsolute htakes hrelative
    refine ⟨v, hnumber, ?_⟩
    show (readBigEndian (Slot.field (m', op')) : Int) = _ % 2 ^ (8 * (m'.withBit k).width)
    rw [hwithBit, Slot.field, hv]
    exact readBigEndian_field_const v
  · intro hm
    obtain rfl : m' = .relative := by
      cases m' <;> first | rfl | cases hm
    obtain ⟨v, hv, hleast, hgreatest, hop⟩ := hvalue rfl
    have hfield : readSigned (UInt8.ofNat (readBigEndian (Slot.field (.relative, op')))) = v := by
      rw [Slot.field, hv]
      exact readSigned_field hleast hgreatest
    rcases hop with hop | ⟨r, target, hop, hsymbol, hdistance⟩
    · exact Or.inl ⟨v, hop, hfield⟩
    · refine Or.inr ⟨r, target + r.addend, hop, ?_, ?_⟩
      · show Operand.number? value? op = _
        rw [Operand.number?, hop]
        dsimp only
        rw [hsymbol]
        rfl
      · -- the distance to the symbol and the end of the instruction add up to the symbol
        have hsame := Quantity.wrap_emod (target + r.addend - (base.toNat + offset + f.length))
        rw [if_pos rfl] at hdistance
        rw [← hdistance] at hsame
        rw [htarget rfl, hfield, Instruction.targetOf, haddress, hsize, UInt32.toNat_add,
          UInt32.toNat_ofNat']
        refine congrArg (fun v => some (UInt32.ofInt v)) ?_
        omega

/-- A patched instruction is read back: its bytes are decoded to the first form with the
opcode of the form with the bit number in it, and the fields hold the numbers of the
operands. -/
theorem readsBack_of_patch (hf : f ∈ Form.all) (he : f.encode ops = .ok e)
    (hnotes : e.diagnostics = [])
    (hnumbers : ∀ r ∈ e.relocations, ((r.shift offset).number? base value?).isSome = true)
    (htame : ∀ op ∈ ops, op.IsTame value?) {source : ByteSource}
    (hserves : source.Serves (base + UInt32.ofNat offset)
      (patch base value? offset e.relocations e.code.toList)) :
    ∃ i, decode source (base + UInt32.ofNat offset) = .ok i ∧
      i.bytes = patch base value? offset e.relocations e.code.toList ∧
      f.IsReadAs value? i ops := by
  obtain ⟨hcheck, hlayout⟩ := Form.hasLayout_of_encode he
  obtain ⟨hlength, hslots⟩ := Form.check_eq_ok_iff.mp hcheck
  have hsettled := @Form.length_settled base value? f offset ops hlength
  have hbits : ∀ s ∈ f.slots ops, ∀ n r, s.1.bit? = some n → s.2.value = some (.symbol r) →
      n = 0 := fun s hs n r hbit hv => Slot.zero_of_symbol (hslots s hs).2 hbit hv
  rw [Form.patch_layout hlength hlayout hnumbers hbits] at hserves ⊢
  have hfilled : ∀ t ∈ f.slots (f.settled base value? offset ops), t.IsFilled := by
    intro t ht htakes
    obtain ⟨s, hs⟩ := exists_pair hlength ht
    rw [← Form.settled_fst hlength hs] at htakes
    obtain ⟨v, hv, -⟩ := settled_value hf he hnotes hnumbers hs htakes
    rw [hv]
    rfl
  -- with all symbols settled it is an encoding of constants
  obtain ⟨k, hform, hk⟩ := exists_withBit_settled hf he hnotes hnumbers
  obtain ⟨g, hg, hmodes, -, hdecode⟩ := decode_layout hf hsettled hfilled hserves
  rw [hform] at hg hmodes
  have hcount : g.modes.length = ops.length := by
    rw [hmodes, Form.modes_withBit, List.length_map, hlength]
  have hfields : ((f.slots (f.settled base value? offset ops)).map fun s =>
      readBigEndian s.field).length = ops.length := by
    rw [List.length_map, Form.slots, List.length_zip, hsettled, hlength, Nat.min_self]
  refine ⟨_, hdecode, rfl, g, k, _, rfl, ?_, hmodes, hcount, hfields, ?_⟩
  · rw [← withOpcode?_catalog, hg]
  · intro j m op n hm hop hn
    rw [hmodes, Form.modes_withBit, List.getElem?_map, Option.map_eq_some_iff] at hm
    obtain ⟨m', hm', rfl⟩ := hm
    rw [List.getElem?_map, Option.map_eq_some_iff] at hn
    obtain ⟨t, ht, rfl⟩ := hn
    have hs : (f.slots ops)[j]? = some (m', op) :=
      List.getElem?_zip_eq_some.mpr ⟨hm', hop⟩
    have hpair : (((m', op), t) : Slot × Slot) ∈
        (f.slots ops).zip (f.slots (f.settled base value? offset ops)) :=
      List.mem_of_getElem? (List.getElem?_zip_eq_some.mpr ⟨hs, ht⟩)
    have hmode : t.1 = m' := (Form.settled_fst hlength hpair).symm
    refine isReadAs_slot (hslots _ (List.mem_of_getElem? hs)).2
      (htame op (List.mem_of_getElem? hop)) hmode
      (fun htakes => settled_value hf he hnotes hnumbers hpair htakes)
      (hk t (List.mem_of_getElem? ht)) ?_ rfl (length_layout hsettled hfilled)
    rintro rfl
    refine Instruction.target?_eq (Form.mem_of_withOpcode? hg).1 rfl (hfields.trans hcount.symm)
      (List.mem_iff_getElem?.mpr ⟨j, List.getElem?_zip_eq_some.mpr ⟨?_, ?_⟩⟩)
    · rw [hmodes, Form.modes_withBit, List.getElem?_map, hm']
      rfl
    · rw [List.getElem?_map, ht]
      rfl

end

end Stm8
