import Stm8.Proofs.Encoding.BitNumber
import Stm8.Proofs.Relocation.Patching

/-!
# Symbols become constants

When its requests are carried out, an instruction gets the bytes that it would have if
constants stood in the place of its symbols. `Slot.settle` puts such a constant into a
slot: the number that the request of the slot writes.

> `patch_layout`: the patched code of an instruction is the layout of the settled
> operands.
-/

namespace Stm8

open Relocation (patch)

/-- The number that the operand stands for when symbols have values. -/
def Operand.number? (value? : String → Option Int) (op : Operand) : Option Int :=
  match op.value with
  | none => none
  | some (.const v) => some v
  | some (.symbol r) => (value? r.name).map (· + r.addend)

section

variable {base : UInt32} {value? : String → Option Int}

namespace Slot

/-! ## One slot -/

/-- The slot with a constant in the place of its symbol, where the field begins at
`start` and the last byte of the opcode stands at `last`. -/
def settle (base : UInt32) (value? : String → Option Int) (last start : Nat) (s : Slot) : Slot :=
  match s.requests last start with
  | [] => s
  | r :: _ =>
    match r.number? base value? with
    | some v => (s.1, { s.2 with value := some (.const v) })
    | none => s

/-- A slot asks for nothing, or for one symbol, which it takes. -/
theorem requests_cases (s : Slot) (last start : Nat) :
    s.requests last start = [] ∨
      ∃ r q, s.2.value = some (.symbol r) ∧ s.1.relocation? = some q.kind ∧
        q.symbol = r.name ∧ q.addend = r.addend ∧
        q.offset = (if s.1.bit?.isSome then last else start) ∧ s.requests last start = [q] := by
  unfold requests
  cases hv : s.2.value with
  | none => exact Or.inl rfl
  | some value =>
    cases value with
    | const v => exact Or.inl rfl
    | symbol r =>
      cases hkind : s.1.relocation? with
      | none => exact Or.inl rfl
      | some kind =>
        exact Or.inr ⟨r, ⟨_, kind, r.name, r.addend, s.2.span⟩, rfl, rfl, rfl, rfl, rfl, rfl⟩

/-- A request moves along with the code. -/
theorem requests_shift (s : Slot) (n last start : Nat) :
    (s.requests last start).map (·.shift n) = s.requests (n + last) (n + start) := by
  unfold requests
  cases s.2.value with
  | none => rfl
  | some value =>
    cases value with
    | const v => rfl
    | symbol r =>
      cases s.1.relocation? with
      | none => rfl
      | some kind =>
        show [_] = [_]
        cases s.1.bit?.isSome <;> rfl

/-- Settling leaves the mode. -/
@[simp] theorem settle_fst (last start : Nat) (s : Slot) :
    (s.settle base value? last start).1 = s.1 := by
  unfold settle
  split
  · rfl
  · split <;> rfl

/-- The kind of relocation is as wide as the field. -/
theorem size_of_relocation? {m : Mode} {kind : Relocation.Kind} (h : m.relocation? = some kind) :
    m.bit?.isSome = true ∧ kind = .bitNumber ∨
      m.bit? = none ∧ kind ≠ .bitNumber ∧ kind.size = m.width := by
  cases m <;> simp [Mode.relocation?, Mode.bit?, Mode.width] at h ⊢ <;> subst h <;>
    simp [Relocation.Kind.size]

/-- What a request can write is in the range of the slot, and it is relative if the slot
is for a displacement. -/
theorem range_of_relocation? {m : Mode} {kind : Relocation.Kind} (h : m.relocation? = some kind) :
    m.range.1 ≤ kind.range.1 ∧ kind.range.2 ≤ m.range.2 ∧
      kind.isRelative = (m == .relative) := by
  cases m with
  | bit n =>
    obtain rfl : Relocation.Kind.bitNumber = kind := Option.some.inj h
    exact ⟨Int.le_refl 0, Int.le_refl 7, rfl⟩
  | reg | indX | indY => cases h
  | _ =>
    obtain rfl := Option.some.inj h
    exact ⟨by decide, by decide, rfl⟩

/-- A number is in the range of its kind. -/
theorem range_of_number? {r : Relocation} {v : Int} (h : r.number? base value? = some v) :
    ∃ target, value? r.symbol = some target ∧ v = r.value base target ∧
      r.kind.range.1 ≤ v ∧ v ≤ r.kind.range.2 := by
  unfold Relocation.number? at h
  cases htarget : value? r.symbol with
  | none =>
    rw [htarget] at h
    cases h
  | some target =>
    rw [htarget] at h
    dsimp only at h
    split at h
    · cases h
    · next hrange =>
      rw [Bool.or_eq_true, decide_eq_true_iff, decide_eq_true_iff, not_or] at hrange
      injection h with h
      rw [h] at hrange
      exact ⟨target, rfl, h.symm, Int.not_lt.mp hrange.1, Int.not_lt.mp hrange.2⟩

/-- A symbol moves the opcode on by nothing. -/
theorem shift_of_symbol {s : Slot} {r : SymbolRef} (h : s.2.value = some (.symbol r)) :
    s.shift = 0 := by
  have hnone : s.bit? = none := by
    unfold bit?
    rw [h]
    cases s.1.bit? <;> rfl
  unfold shift
  rw [hnone]
  cases s.1.bit? <;> rfl

/-- A constant in a slot for bit zero moves the opcode on by itself. -/
theorem shift_of_const {s : Slot} {v : Int} (hbit : s.1.bit? = some 0)
    (h : s.2.value = some (.const v)) (hleast : 0 ≤ v) (hgreatest : v ≤ 7) : s.shift = v := by
  rw [shift_of_bit hbit h hleast hgreatest]
  exact Int.sub_zero v

/-- Carrying out the request of one slot puts its constant in. -/
theorem patch_requests {s : Slot} {last offset : Nat} {front : List UInt8}
    (hlast : last < front.length)
    (hnumbers : ∀ r ∈ s.requests (offset + last) (offset + front.length),
      (r.number? base value?).isSome = true)
    (hzero : ∀ n r, s.1.bit? = some n → s.2.value = some (.symbol r) → n = 0)
    (behind : List UInt8) :
    patch base value? offset (s.requests last front.length) (front ++ (s.field ++ behind)) =
      front.modify last (· + 2 * UInt8.ofInt
          ((s.settle base value? (offset + last) (offset + front.length)).shift - s.shift)) ++
        ((s.settle base value? (offset + last) (offset + front.length)).field ++ behind) := by
  rcases s.requests_cases last front.length with
    hnone | ⟨r, q, hv, hkind, -, -, hoffset, hrequest⟩
  · have hnone' : s.requests (offset + last) (offset + front.length) = [] := by
      rw [← requests_shift, hnone]
      rfl
    rw [hnone, settle, hnone', Int.sub_self, modify_shift_zero]
    rfl
  · -- the slot asks for one symbol, which has a number
    have hrequest' : s.requests (offset + last) (offset + front.length) = [q.shift offset] := by
      rw [← requests_shift, hrequest]
      rfl
    have hmem : q.shift offset ∈ s.requests (offset + last) (offset + front.length) := by
      rw [hrequest']
      exact List.mem_singleton_self _
    obtain ⟨v, hnumber⟩ := Option.isSome_iff_exists.mp (hnumbers _ hmem)
    have hsettle : s.settle base value? (offset + last) (offset + front.length) =
        (s.1, { s.2 with value := some (.const v) }) := by
      rw [settle, hrequest']
      simp only [hnumber]
    obtain ⟨target, -, -, hleast, hgreatest⟩ := range_of_number? hnumber
    have hfield : s.field = List.replicate s.1.width filler := by
      rw [field, hv]
    rw [hsettle, hrequest, Relocation.patch_cons, hnumber, hfield, shift_of_symbol hv, Int.sub_zero]
    show q.write _ v = _
    rcases size_of_relocation? hkind with ⟨hbit, hq⟩ | ⟨hbit, hq, hsize⟩
    · obtain ⟨n, hn⟩ := Option.isSome_iff_exists.mp hbit
      -- a symbol waits for its bit number in a slot for bit zero
      obtain rfl := hzero n r hn hv
      replace hleast : q.kind.range.1 ≤ v := hleast
      replace hgreatest : v ≤ q.kind.range.2 := hgreatest
      rw [hq] at hleast hgreatest
      have hshift : shift (s.1, { s.2 with value := some (.const v) }) = v :=
        shift_of_const hn rfl hleast hgreatest
      rw [Relocation.write_of_bitNumber hq, hshift, hoffset, if_pos hbit,
        Encoding.modify_append_left hlast, field]
      simp [Mode.width_of_bit? hn, bigEndian]
    · have hshift : shift (s.1, { s.2 with value := some (.const v) }) = 0 :=
        shift_of_not_bit hbit
      -- the filler is cut out, and the number put in its place
      have hdrop : (List.replicate s.1.width filler ++ behind).drop s.1.width = behind :=
        List.drop_left' List.length_replicate
      rw [Relocation.write_of_ne_bitNumber hq, hshift, modify_shift_zero, field, hoffset, hbit,
        if_neg (by simp), hsize, List.take_left, List.drop_length_add_append, hdrop,
        List.append_assoc]

/-- The constant that settling puts into a slot: the value of the symbol with its
addend, counted from the end of the field if the slot is for a displacement, and computed
in 64 bits. -/
theorem settle_cases {s : Slot} {last start : Nat}
    (hnumbers : ∀ r ∈ s.requests last start, (r.number? base value?).isSome = true) :
    (s.requests last start = [] ∧ s.settle base value? last start = s) ∨
      ∃ r target v, s.2.value = some (.symbol r) ∧ value? r.name = some target ∧
        s.settle base value? last start = (s.1, { s.2 with value := some (.const v) }) ∧
        s.1.range.1 ≤ v ∧ v ≤ s.1.range.2 ∧
        v = Quantity.wrap (if s.1 = .relative then target + r.addend - (base.toNat + start + 1)
          else target + r.addend) := by
  rcases s.requests_cases last start with
    hnone | ⟨r, q, hv, hkind, hname, haddend, hoffset, hrequest⟩
  · exact Or.inl ⟨hnone, by rw [settle, hnone]⟩
  · refine Or.inr ?_
    obtain ⟨v, hnumber⟩ := Option.isSome_iff_exists.mp
      (hnumbers q (by rw [hrequest]; exact List.mem_singleton_self q))
    obtain ⟨target, htarget, hvalue, hleast, hgreatest⟩ := range_of_number? hnumber
    rw [hname] at htarget
    refine ⟨r, target, v, hv, htarget, ?_, ?_⟩
    · rw [settle, hrequest]
      simp only [hnumber]
    · obtain ⟨hlow, hhigh, hrelative⟩ := range_of_relocation? hkind
      refine ⟨by omega, by omega, ?_⟩
      rw [hvalue, Relocation.value_eq_wrap, Relocation.sum, haddend, hoffset, hrelative]
      by_cases hmode : s.1 = .relative
      · rw [hmode]
        rfl
      · rw [beq_eq_false_iff_ne.mpr hmode, if_neg hmode, if_neg Bool.false_ne_true]

end Slot

/-! ## All slots of an instruction -/

/-- The slots with constants in the place of their symbols, where the first field begins
at `start`. -/
def settleFrom (base : UInt32) (value? : String → Option Int) (last start : Nat) :
    List Slot → List Slot
  | [] => []
  | s :: rest =>
    s.settle base value? last start ::
      settleFrom base value? last (start + s.field.length) rest

theorem map_fst_settleFrom (last start : Nat) (slots : List Slot) :
    (settleFrom base value? last start slots).map Prod.fst = slots.map Prod.fst := by
  induction slots generalizing start with
  | nil => rfl
  | cons s slots ih => rw [settleFrom, List.map_cons, List.map_cons, ih, Slot.settle_fst]

/-- Requests move along with the code. -/
theorem requestsFrom_shift (n last start : Nat) (slots : List Slot) :
    (requestsFrom last start slots).map (·.shift n) =
      requestsFrom (n + last) (n + start) slots := by
  induction slots generalizing start with
  | nil => rfl
  | cons s slots ih =>
    rw [requestsFrom, requestsFrom, List.map_append, Slot.requests_shift, ih, Nat.add_assoc]

/-- Every request is one of a slot. -/
theorem exists_of_mem_requestsFrom {last start : Nat} {slots : List Slot} {r : Relocation}
    (hr : r ∈ requestsFrom last start slots) : ∃ s ∈ slots, ∃ at', r ∈ s.requests last at' := by
  induction slots generalizing start with
  | nil => cases hr
  | cons s slots ih =>
    rcases List.mem_append.mp hr with hr | hr
    · exact ⟨s, List.mem_cons_self, start, hr⟩
    · obtain ⟨t, ht, at', hr⟩ := ih hr
      exact ⟨t, List.mem_cons_of_mem _ ht, at', hr⟩

/-- A slot asks for its own field or for the opcode. -/
theorem Slot.fitsIn_requests {s : Slot} {last start : Nat} (h : last < start) :
    ∀ r ∈ s.requests last start, r.FitsIn (start + s.field.length) := by
  intro q hq
  rcases s.requests_cases last start with hnone | ⟨r, q', hv, hkind, -, -, hoffset, hrequest⟩
  · rw [hnone] at hq
    cases hq
  · rw [hrequest, List.mem_singleton] at hq
    subst hq
    have hfield : s.field.length = s.1.width := by
      rw [field, hv]
      exact List.length_replicate
    unfold Relocation.FitsIn
    rw [hoffset]
    rcases size_of_relocation? hkind with ⟨hbit, hq⟩ | ⟨hbit, -, hsize⟩
    · rw [if_pos hbit, hq]
      show last + 1 ≤ _
      omega
    · have hwidth := hsize.trans hfield.symm
      rw [hbit, if_neg (by simp)]
      omega

/-- The slots of an instruction ask for its own bytes. -/
theorem fitsIn_requestsFrom {last start : Nat} {slots : List Slot} (h : last < start) :
    ∀ r ∈ requestsFrom last start slots,
      r.FitsIn (start + (slots.map fun s => s.field.length).sum) := by
  induction slots generalizing start with
  | nil => intro r hr; cases hr
  | cons s slots ih =>
    intro r hr
    rw [List.map_cons, List.sum_cons, ← Nat.add_assoc]
    rcases List.mem_append.mp hr with hr | hr
    · exact Nat.le_trans (Slot.fitsIn_requests h r hr) (Nat.le_add_right ..)
    · exact ih (by omega) r hr

/-- A constant takes as much room as the filler. -/
theorem Slot.length_field_settle (last start : Nat) (s : Slot) :
    (s.settle base value? last start).field.length = s.field.length := by
  rcases s.requests_cases last start with hnone | ⟨r, q, hv, -, -, -, -, hrequest⟩
  · rw [settle, hnone]
  · rw [settle, hrequest]
    dsimp only
    cases q.number? base value? with
    | none => rfl
    | some v => simp [field, hv]

/-- Carrying out all requests puts all constants in. -/
theorem patch_requestsFrom {last offset : Nat} :
    ∀ {slots : List Slot} {front : List UInt8}, last < front.length →
      (∀ r ∈ requestsFrom (offset + last) (offset + front.length) slots,
        (r.number? base value?).isSome = true) →
      (∀ s ∈ slots, ∀ n r, s.1.bit? = some n → s.2.value = some (.symbol r) → n = 0) →
      patch base value? offset (requestsFrom last front.length slots)
          (front ++ (slots.map Slot.field).flatten) =
        front.modify last (· + 2 * UInt8.ofInt
            (((settleFrom base value? (offset + last) (offset + front.length) slots).map
                Slot.shift).sum - (slots.map Slot.shift).sum)) ++
          ((settleFrom base value? (offset + last) (offset + front.length) slots).map
            Slot.field).flatten := by
  intro slots
  induction slots with
  | nil =>
    intro front _ _ _
    simp [requestsFrom, settleFrom, patch, modify_shift_zero]
  | cons s slots ih =>
    intro front hlast hnumbers hzero
    rw [List.forall_mem_cons] at hzero
    rw [requestsFrom, List.forall_mem_append] at hnumbers
    -- the slot, and then the others behind it
    let settled := s.settle base value? (offset + last) (offset + front.length)
    let next := front.modify last (· + 2 * UInt8.ofInt (settled.shift - s.shift)) ++ settled.field
    have hnext : next.length = front.length + s.field.length := by
      rw [List.length_append, List.length_modify, Slot.length_field_settle]
    have hstart : offset + front.length + s.field.length = offset + next.length := by omega
    have hrest := @ih next (by omega) (hstart ▸ hnumbers.2) hzero.2
    rw [requestsFrom, Relocation.patch_append, List.map_cons, List.flatten_cons,
      Slot.patch_requests hlast hnumbers.1 hzero.1, ← List.append_assoc, ← hnext]
    show patch base value? offset _ (next ++ _) = _
    have hsum : ∀ a b : Int,
        settled.shift - s.shift + (a - b) = settled.shift + a - (s.shift + b) := by
      intro a b
      omega
    rw [hrest, settleFrom, List.map_cons, List.map_cons, List.map_cons, List.flatten_cons,
      List.sum_cons, List.sum_cons, ← List.append_assoc, hstart,
      Encoding.modify_append_modify hlast, hsum]

namespace Form

/-- The operands with constants in the place of their symbols, for an instruction that
stands behind `offset` bytes of the program. -/
def settled (f : Form) (base : UInt32) (value? : String → Option Int) (offset : Nat)
    (ops : List Operand) : List Operand :=
  (f.emission (settleFrom base value? (offset + (f.opcodeWidth - 1)) (offset + f.opcodeWidth)
    (f.emission (f.slots ops)))).map Prod.snd

theorem length_settled (f : Form) (offset : Nat) {ops : List Operand}
    (hlength : ops.length = f.modes.length) :
    (f.settled base value? offset ops).length = f.modes.length := by
  have hfst := congrArg List.length (@map_fst_settleFrom base value?
    (offset + (f.opcodeWidth - 1)) (offset + f.opcodeWidth) (f.emission (f.slots ops)))
  rw [List.length_map, List.length_map] at hfst
  rw [settled, List.length_map, length_emission, hfst, length_emission, slots, List.length_zip]
  omega

/-- The slots with the constants in them. -/
theorem slots_settled {f : Form} {ops : List Operand} (hlength : ops.length = f.modes.length)
    (offset : Nat) :
    f.slots (f.settled base value? offset ops) =
      f.emission (settleFrom base value? (offset + (f.opcodeWidth - 1)) (offset + f.opcodeWidth)
        (f.emission (f.slots ops))) := by
  unfold slots settled
  refine (List.zip_of_prod ?_ rfl).symm
  rw [f.map_emission, map_fst_settleFrom, f.map_emission, f.emission_emission]
  exact modes_eq_map_slots hlength

theorem length_slots_settled (f : Form) (offset : Nat) {ops : List Operand}
    (hlength : ops.length = f.modes.length) :
    (f.slots (f.settled base value? offset ops)).length = (f.slots ops).length := by
  have hsettled := @length_settled base value? f offset ops hlength
  rw [slots, slots, List.length_zip, List.length_zip, hsettled, hlength]

/-- The patched code of an instruction is the layout of the settled operands. -/
theorem patch_layout {f : Form} {ops : List Operand} {e : Encoding}
    (hlength : ops.length = f.modes.length) (he : f.HasLayout ops e) {offset : Nat}
    (hnumbers : ∀ r ∈ e.relocations, ((r.shift offset).number? base value?).isSome = true)
    (hzero : ∀ s ∈ f.slots ops, ∀ n r, s.1.bit? = some n → s.2.value = some (.symbol r) → n = 0) :
    patch base value? offset e.relocations e.code.toList =
      f.layout (f.settled base value? offset ops) := by
  -- the opcode, as far as constants have moved it on
  let front := f.opcodeBytes.modify (f.opcodeWidth - 1)
    (· + 2 * UInt8.ofInt ((f.slots ops).map Slot.shift).sum)
  have hfront : front.length = f.opcodeWidth := by
    rw [List.length_modify, length_opcodeBytes]
  have hpos := f.opcodeWidth_pos
  have hnumbers' : ∀ r ∈ requestsFrom (offset + (f.opcodeWidth - 1)) (offset + front.length)
      (f.emission (f.slots ops)), (r.number? base value?).isSome = true := by
    rw [hfront, ← requestsFrom_shift, List.forall_mem_map, ← he.relocations]
    exact hnumbers
  have hpatch := @patch_requestsFrom base value? (f.opcodeWidth - 1) offset
    (f.emission (f.slots ops)) front (by omega) hnumbers'
    fun s hs => hzero s (f.mem_emission.mp hs)
  have hsum : ∀ a b : Int, a + (b - a) = b := by
    intro a b
    omega
  rw [hfront] at hpatch
  rw [he.relocations, he.code]
  show patch base value? offset _ (front ++ _) = _
  rw [hpatch]
  unfold layout
  rw [slots_settled hlength, f.emission_emission, f.map_emission _ (settleFrom ..),
    f.sum_emission, f.map_emission _ (f.slots ops), f.sum_emission]
  show List.modify (List.modify _ _ _) _ _ ++ _ = _
  rw [Encoding.modify_modify, hsum]

end Form

/-! ## Where a slot is settled -/

/-- Every slot is settled behind the fields of those before it. -/
theorem exists_of_mem_settleFrom {last : Nat} :
    ∀ {slots : List Slot} {start : Nat} {x : Slot × Slot},
      x ∈ slots.zip (settleFrom base value? last start slots) →
      ∃ front behind, slots = front ++ x.1 :: behind ∧
        x.2 = x.1.settle base value? last (start + (front.map fun s => s.field.length).sum) ∧
        ∀ r ∈ x.1.requests last (start + (front.map fun s => s.field.length).sum),
          r ∈ requestsFrom last start slots := by
  intro slots
  induction slots with
  | nil => intro start x hx; cases hx
  | cons s slots ih =>
    intro start x hx
    rcases List.mem_cons.mp hx with rfl | hx
    · exact ⟨[], slots, rfl, rfl, fun r hr => List.mem_append_left _ hr⟩
    · obtain ⟨front, behind, hslots, hsettle, hrequests⟩ := ih hx
      refine ⟨s :: front, behind, by rw [hslots, List.cons_append], ?_, ?_⟩
      · rw [List.map_cons, List.sum_cons, ← Nat.add_assoc]
        exact hsettle
      · rw [List.map_cons, List.sum_cons, ← Nat.add_assoc]
        exact fun r hr => List.mem_append_right _ (hrequests r hr)

namespace Form

/-- A displacement is the last field. -/
theorem sum_before_relative {f : Form} (hf : f ∈ all) {ops : List Operand}
    (hlength : ops.length = f.modes.length) (hfilled : ∀ s ∈ f.slots ops, s.IsFilled)
    {front behind : List Slot} {s : Slot} (hs : s.1 = .relative)
    (hslots : f.emission (f.slots ops) = front ++ s :: behind) :
    (front.map fun s => s.field.length).sum + 1 = f.fieldWidth := by
  have hmem : s ∈ f.emission (f.slots ops) := by
    rw [hslots]
    exact List.mem_append_right front List.mem_cons_self
  have hmode : Mode.relative ∈ f.modes := by
    rw [← hs]
    exact (List.of_mem_zip (f.mem_emission.mp hmem)).1
  obtain ⟨hreversed, -, hlast⟩ := relative_last f hf hmode
  rw [emission, hreversed, if_neg Bool.false_ne_true] at hslots
  have hmodes := modes_eq_map_slots hlength
  rw [hslots, List.map_append, List.map_cons, hs] at hmodes
  cases behind with
  | cons b behind =>
    -- another slot behind it would leave it among the first ones
    rw [← hmodes, List.map_cons, List.dropLast_append_cons, List.dropLast_cons_cons] at hlast
    exact absurd (List.mem_append_right _ List.mem_cons_self) hlast
  | nil =>
    have hwidths : front.map (fun s => s.field.length) = (front.map Prod.fst).map Mode.width := by
      rw [List.map_map]
      refine List.map_congr_left fun t ht => Slot.length_field (hfilled t ?_)
      rw [hslots]
      exact List.mem_append_left _ ht
    rw [fieldWidth_eq_sum, ← hmodes, hwidths, List.map_append, List.sum_append]
    rfl

/-- What becomes of an operand when symbols have values. -/
theorem settled_cases {f : Form} (hf : f ∈ all) {ops : List Operand}
    (hlength : ops.length = f.modes.length) (hfilled : ∀ s ∈ f.slots ops, s.IsFilled)
    {offset : Nat}
    (hnumbers : ∀ r ∈ requestsFrom (f.opcodeWidth - 1) f.opcodeWidth (f.emission (f.slots ops)),
      ((r.shift offset).number? base value?).isSome = true)
    {x : Slot × Slot}
    (hx : x ∈ (f.slots ops).zip (f.slots (f.settled base value? offset ops))) :
    (x.2 = x.1 ∧ ∀ r, x.1.2.value = some (.symbol r) → x.1.1.takesValue = false) ∨
      ∃ r target v, x.1.2.value = some (.symbol r) ∧ value? r.name = some target ∧
        x.2 = (x.1.1, { x.1.2 with value := some (.const v) }) ∧
        x.1.1.range.1 ≤ v ∧ v ≤ x.1.1.range.2 ∧
        v = Quantity.wrap (if x.1.1 = .relative then
            target + r.addend - (base.toNat + offset + f.length)
          else target + r.addend) := by
  have hcount : (f.emission (f.slots ops)).length =
      (settleFrom base value? (offset + (f.opcodeWidth - 1)) (offset + f.opcodeWidth)
        (f.emission (f.slots ops))).length := by
    have hfst := congrArg List.length (@map_fst_settleFrom base value?
      (offset + (f.opcodeWidth - 1)) (offset + f.opcodeWidth) (f.emission (f.slots ops)))
    rw [List.length_map, List.length_map] at hfst
    exact hfst.symm
  rw [slots_settled hlength, ← f.emission_emission (f.slots ops), f.zip_emission
    (by rw [f.emission_emission]; exact hcount), f.mem_emission, f.emission_emission] at hx
  obtain ⟨front, behind, hslots, hsettle, hrequests⟩ := exists_of_mem_settleFrom hx
  have hnumbers' : ∀ r ∈ requestsFrom (offset + (f.opcodeWidth - 1)) (offset + f.opcodeWidth)
      (f.emission (f.slots ops)), (r.number? base value?).isSome = true := by
    rw [← requestsFrom_shift, List.forall_mem_map]
    exact hnumbers
  rcases Slot.settle_cases fun r hr => hnumbers' r (hrequests r hr) with
    ⟨hnone, hkeep⟩ | ⟨r, target, v, hv, htarget, hconst, hleast, hgreatest, hvalue⟩
  · refine Or.inl ⟨hsettle.trans hkeep, fun r hr => ?_⟩
    rw [← Mode.isSome_relocation?]
    cases hkind : x.1.1.relocation? with
    | none => rfl
    | some kind =>
      rw [Slot.requests, hr, hkind] at hnone
      cases hnone
  · refine Or.inr ⟨r, target, v, hv, htarget, hsettle.trans hconst, hleast, hgreatest, ?_⟩
    rw [hvalue]
    by_cases hrelative : x.1.1 = .relative
    · have hsum := sum_before_relative hf hlength hfilled hrelative hslots
      have hend : f.length = f.opcodeWidth + f.fieldWidth := rfl
      rw [if_pos hrelative, if_pos hrelative, hend, ← hsum]
      refine congrArg Quantity.wrap ?_
      omega
    · rw [if_neg hrelative, if_neg hrelative]

/-- Settling leaves the modes of all slots. -/
theorem settled_fst {f : Form} {ops : List Operand} (hlength : ops.length = f.modes.length)
    {offset : Nat} {x : Slot × Slot}
    (hx : x ∈ (f.slots ops).zip (f.slots (f.settled base value? offset ops))) :
    x.1.1 = x.2.1 := by
  refine @eq_of_mem_zip Slot Slot Mode Prod.fst Prod.fst _ _ ?_ x hx
  rw [modes_eq_map_slots hlength, modes_eq_map_slots (length_settled f offset hlength)]

end Form

end

end Stm8
