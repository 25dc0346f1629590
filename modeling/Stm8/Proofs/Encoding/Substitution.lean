import Stm8.Proofs.Instruction.ReadBack
import Stm8.Proofs.Instruction.Written
import Stm8.Proofs.Relocation.Exactness

/-!
# A symbol is as good as its value

One symbol among the operands may be given its value in two ways: its request is carried
out on the encoded instruction, or the constant is put in its place and the instruction
encoded once more. The other operands may be what they like, symbols included.

> `encode_set_of_apply`: where the request can be carried out, the operand with the
> constant is taken by the same form, the bytes come out the same, and there is nothing to
> note about it.

The instruction is cut open at the slot of the operand (`exists_split`). What stands in
front of the slot and behind it is the same in both encodings (`layout_split`).
-/

namespace Stm8

/-! ## A constant in the place of a symbol -/

/-- The operand with a constant in the place of its value. -/
def Operand.withConst (op : Operand) (v : Int) : Operand :=
  { op with value := some (.const v) }

/-- Where a symbol fits, every constant in the range of the slot does. -/
theorem Operand.fits_withConst {op : Operand} {m : Mode} {r : SymbolRef} {v : Int}
    (hfits : op.fits m = true) (hv : op.value = some (.symbol r)) (hleast : m.range.1 ≤ v)
    (hgreatest : v ≤ m.range.2) : (op.withConst v).fits m = true := by
  unfold fits at hfits
  rw [hv] at hfits
  unfold withConst fits
  unfold Kind.fits at hfits ⊢
  split at hfits <;>
    simp_all [Value.fits8, Value.const?, Mode.range, Mode.width, Int.pow] <;> omega

/-- A slot that takes a value asks for a symbol. -/
theorem Slot.exists_requests {m : Mode} {op : Operand} {r : SymbolRef}
    (htakes : m.takesValue = true) (hv : op.value = some (.symbol r)) (last start : Nat) :
    ∃ q, Slot.requests last start (m, op) = [q] := by
  rw [← Mode.isSome_relocation?] at htakes
  obtain ⟨kind, hkind⟩ := Option.isSome_iff_exists.mp htakes
  unfold requests
  simp only [hv, hkind]
  exact ⟨_, rfl⟩

/-! ## The slot cut out -/

theorem exists_append_of_getElem? {α : Type} {items : List α} {i : Nat} {a : α}
    (h : items[i]? = some a) :
    ∃ front behind, items = front ++ a :: behind ∧ front.length = i := by
  obtain ⟨hi, rfl⟩ := List.getElem?_eq_some_iff.mp h
  refine ⟨items.take i, items.drop (i + 1), ?_, List.length_take_of_le (Nat.le_of_lt hi)⟩
  rw [← List.drop_eq_getElem_cons hi, List.take_append_drop]

namespace Form

/-- The place of the slot with index `i` among the fields. -/
def fieldIndex (f : Form) (i : Nat) : Nat :=
  if f.reversed then f.modes.length - 1 - i else i

/-- Where the field of the slot with index `i` begins. -/
def fieldStart (f : Form) (i : Nat) : Nat :=
  f.opcodeWidth + (((f.emission f.modes).take (f.fieldIndex i)).map Mode.width).sum

/-- Among the fields there are others in front of an item and behind it, which do not
depend on it. -/
theorem exists_emission_split {α : Type} (f : Form) (front behind : List α)
    (hlength : front.length + (behind.length + 1) = f.modes.length) :
    ∃ before after : List α, before.length = f.fieldIndex front.length ∧
      ∀ a, f.emission (front ++ a :: behind) = before ++ a :: after := by
  unfold emission fieldIndex
  by_cases hreversed : f.reversed = true
  · rw [if_pos hreversed]
    refine ⟨behind.reverse, front.reverse, by rw [List.length_reverse]; omega, fun a => ?_⟩
    rw [if_pos hreversed, List.reverse_append, List.reverse_cons, List.append_assoc]
    rfl
  · rw [if_neg hreversed]
    exact ⟨front, behind, rfl, fun a => by rw [if_neg hreversed]⟩

/-- The slots in front of the one of an operand, and those behind it. -/
theorem exists_split {f : Form} {ops : List Operand} {i : Nat} {m : Mode} {op : Operand}
    (hlength : ops.length = f.modes.length) (hm : f.modes[i]? = some m)
    (hop : ops[i]? = some op) :
    ∃ before after : List Slot, f.emission (f.slots ops) = before ++ (m, op) :: after ∧
      f.fieldStart i = f.opcodeWidth + (before.map fun s => s.1.width).sum ∧
      ∀ op', f.emission (f.slots (ops.set i op')) = before ++ (m, op') :: after := by
  obtain ⟨modes, modes', hmodes, hi⟩ := exists_append_of_getElem? hm
  obtain ⟨front, behind, hops, hi'⟩ := exists_append_of_getElem? hop
  have hslots : ∀ op', f.slots (front ++ op' :: behind) =
      modes.zip front ++ (m, op') :: modes'.zip behind := by
    intro op'
    rw [slots, hmodes, List.zip_append (hi.trans hi'.symm)]
    rfl
  have hzip : (modes.zip front).length = i := by
    rw [List.length_zip, hi, hi', Nat.min_self]
  have hcount : (modes.zip front).length + ((modes'.zip behind).length + 1) = f.modes.length := by
    rw [hmodes, hops, List.length_append, List.length_append, List.length_cons,
      List.length_cons] at hlength
    rw [hzip, hmodes, List.length_append, List.length_cons, List.length_zip]
    omega
  obtain ⟨before, after, hbefore, hsplit⟩ := f.exists_emission_split _ _ hcount
  have hself : f.emission (f.slots ops) = before ++ (m, op) :: after := by
    rw [hops, hslots, hsplit]
  refine ⟨before, after, hself, ?_, fun op' => ?_⟩
  · -- the modes stand in the same order as the slots
    have hfst : f.emission f.modes = before.map Prod.fst ++ m :: after.map Prod.fst := by
      rw [← modes_eq_map_slots hlength, ← f.map_emission, hself, List.map_append]
      rfl
    have htake : (f.emission f.modes).take (f.fieldIndex i) = before.map Prod.fst := by
      rw [hfst]
      exact List.take_left' (by rw [List.length_map, hbefore, hzip])
    rw [fieldStart, htake, List.map_map]
    rfl
  · rw [hops, ← hi', List.set_append_right _ _ (Nat.le_refl _), Nat.sub_self, List.set_cons_zero,
      hslots, hsplit]

end Form

theorem requestsFrom_append (last : Nat) (behind : List Slot) :
    ∀ (front : List Slot) (start : Nat), requestsFrom last start (front ++ behind) =
      requestsFrom last start front ++
        requestsFrom last (start + (front.map fun s => s.field.length).sum) behind
  | [], _ => rfl
  | s :: front, start => by
    rw [List.cons_append, requestsFrom, requestsFrom, requestsFrom_append last behind front,
      List.map_cons, List.sum_cons, Nat.add_assoc, List.append_assoc]

/-- Where the request of a slot can be carried out on code in which the slot has its field,
the number is in the range of the slot, and the code is that with the number in it. -/
theorem Slot.patched_of_apply {m : Mode} {op : Operand} {r : SymbolRef} {last : Nat}
    {front behind : List UInt8} {q : Relocation} {address : UInt32} {target : Int}
    {patched : List UInt8} (hlast : last < front.length) (hv : op.value = some (.symbol r))
    (hzero : ∀ n, m.bit? = some n → n = 0)
    (hrequest : Slot.requests last front.length (m, op) = [q])
    (happly : q.apply (front ++ (Slot.field (m, op) ++ behind)) address target =
      (patched, none)) :
    ∃ v, v = Quantity.wrap (if m = .relative then
          target + r.addend - (address.toNat + front.length + 1)
        else target + r.addend) ∧
      m.range.1 ≤ v ∧ v ≤ m.range.2 ∧
      patched = front.modify last (· + 2 * UInt8.ofInt
          (Slot.shift (m, op.withConst v) - Slot.shift (m, op))) ++
        (Slot.field (m, op.withConst v) ++ behind) := by
  have hdone := congrArg Prod.snd happly
  have hnumber := Relocation.number?_of_apply hdone
  have hnumbers : ∀ x ∈ Slot.requests last front.length (m, op),
      (x.number? address fun _ => some target).isSome = true := by
    rw [hrequest, List.forall_mem_singleton, hnumber]
    rfl
  have hpatch := @Slot.patch_requests address (fun _ => some target) (m, op) last 0 front hlast
    (by rw [Nat.zero_add, Nat.zero_add]; exact hnumbers) (fun n _ hn _ => hzero n hn) behind
  rw [Nat.zero_add, Nat.zero_add, hrequest, Relocation.patch_cons, Relocation.shift_zero,
    hnumber] at hpatch
  replace hpatch : q.write _ (q.value address target) = _ := hpatch
  rw [← Relocation.eq_write_of_apply hdone, happly] at hpatch
  rcases Slot.settle_cases hnumbers with
    ⟨hnone, -⟩ | ⟨r', target', v, hv', htarget, hsettle, hleast, hgreatest, hvalue⟩
  · rw [hrequest] at hnone
    cases hnone
  · obtain rfl : r = r' := Value.symbol.inj (Option.some.inj (hv.symm.trans hv'))
    obtain rfl : target = target' := Option.some.inj htarget
    rw [hsettle] at hpatch
    exact ⟨v, hvalue, hleast, hgreatest, hpatch⟩

namespace Form

section

variable {f : Form} {ops : List Operand} {before after : List Slot} {s : Slot}

/-- The layout with one of the slots cut out. -/
theorem layout_split (h : f.emission (f.slots ops) = before ++ s :: after) :
    f.layout ops =
      f.opcodeBytes.modify (f.opcodeWidth - 1) (· + 2 * UInt8.ofInt
          ((before.map Slot.shift).sum + (s.shift + (after.map Slot.shift).sum))) ++
        ((before.map Slot.field).flatten ++ (s.field ++ (after.map Slot.field).flatten)) := by
  rw [layout, ← f.sum_emission, ← f.map_emission, h, List.map_append, List.map_append,
    List.map_cons, List.map_cons, List.sum_append, List.sum_cons, List.flatten_append,
    List.flatten_cons]

/-- The operands pass the check if one of them is replaced by another that its slot takes. -/
theorem check_split {ops' : List Operand} {s' : Slot} (hcheck : f.check ops = .ok ())
    (h : f.emission (f.slots ops) = before ++ s :: after)
    (h' : f.emission (f.slots ops') = before ++ s' :: after) (hlength : ops'.length = ops.length)
    (hfilled : s'.IsFilled) (hfits : s'.2.fits s'.1 = true) : f.check ops' = .ok () := by
  obtain ⟨hcount, hslots⟩ := check_eq_ok_iff.mp hcheck
  refine check_eq_ok_iff.mpr ⟨hlength.trans hcount, fun t ht => ?_⟩
  rw [← f.mem_emission, h', List.mem_append, List.mem_cons] at ht
  have hkept : t ∈ before ∨ t ∈ after → t.IsFilled ∧ t.2.fits t.1 = true := by
    intro ht
    refine hslots t (f.mem_emission.mp ?_)
    rw [h, List.mem_append, List.mem_cons]
    exact ht.imp_right Or.inr
  rcases ht with ht | rfl | ht
  · exact hkept (Or.inl ht)
  · exact ⟨hfilled, hfits⟩
  · exact hkept (Or.inr ht)

/-- Where the request of a slot can be carried out, there is a number in the range of the
slot, and the code becomes the layout with this number in the slot. -/
theorem layout_of_apply {e : Encoding} {before after : List Slot} {m : Mode} {op : Operand}
    {r : SymbolRef} {start : Nat} {q : Relocation} (he : f.HasLayout ops e)
    (h : f.emission (f.slots ops) = before ++ (m, op) :: after)
    (hstart : start = f.opcodeWidth + (before.map fun s => s.field.length).sum)
    (hv : op.value = some (.symbol r)) (hzero : ∀ n, m.bit? = some n → n = 0)
    (hrequest : Slot.requests (f.opcodeWidth - 1) start (m, op) = [q]) {address : UInt32}
    {target : Int} {patched : List UInt8}
    (happly : q.apply e.code.toList address target = (patched, none)) :
    ∃ v, v = Quantity.wrap (if m = .relative then target + r.addend - (address.toNat + start + 1)
        else target + r.addend) ∧
      m.range.1 ≤ v ∧ v ≤ m.range.2 ∧
      ∀ ops', f.emission (f.slots ops') = before ++ (m, op.withConst v) :: after →
        f.layout ops' = patched := by
  -- the code in front of the field
  let front := f.opcodeBytes.modify (f.opcodeWidth - 1) (· + 2 * UInt8.ofInt
      ((before.map Slot.shift).sum + (Slot.shift (m, op) + (after.map Slot.shift).sum))) ++
    (before.map Slot.field).flatten
  have hfront : front.length = start := by
    rw [List.length_append, List.length_modify, length_opcodeBytes, List.length_flatten,
      List.map_map, hstart]
    rfl
  have hcode : e.code.toList =
      front ++ (Slot.field (m, op) ++ (after.map Slot.field).flatten) := by
    rw [he.code, layout_split h, List.append_assoc]
  have hpos := f.opcodeWidth_pos
  rw [hcode] at happly
  rw [← hfront] at hrequest
  obtain ⟨v, hvalue, hleast, hgreatest, rfl⟩ :=
    Slot.patched_of_apply (by omega) hv hzero hrequest happly
  rw [hfront] at hvalue
  refine ⟨v, hvalue, hleast, hgreatest, fun ops' h' => ?_⟩
  -- the opcode was moved on by the other slots only
  have hsum : ∀ a b c d : Int, a + (d + c) = a + (b + c) + (d - b) := by
    intro a b c d
    omega
  rw [layout_split h', ← List.append_assoc, Encoding.modify_append_modify
    (by rw [length_opcodeBytes]; omega), hsum _ (Slot.shift (m, op))]

/-- The encoding with a constant in the range of the slot in place of a symbol: the
requests of the other slots stay, and so do the notes. -/
theorem exists_encode_withConst {ops' : List Operand} {e : Encoding} {m : Mode} {op : Operand}
    {r : SymbolRef} {v : Int} (hf : f ∈ all) (hcheck : f.check ops = .ok ())
    (he : f.HasLayout ops e) (h : f.emission (f.slots ops) = before ++ (m, op) :: after)
    (h' : f.emission (f.slots ops') = before ++ (m, op.withConst v) :: after)
    (hlength : ops'.length = ops.length) (hfilled : Slot.IsFilled (m, op))
    (hfits : op.fits m = true) (hv : op.value = some (.symbol r)) (hleast : m.range.1 ≤ v)
    (hgreatest : v ≤ m.range.2) :
    ∃ e', f.encode ops' = .ok e' ∧ e'.code.toList = f.layout ops' ∧
      e'.relocations = requestsFrom (f.opcodeWidth - 1) f.opcodeWidth before ++
        requestsFrom (f.opcodeWidth - 1) (f.opcodeWidth +
          (before.map fun s => s.field.length).sum + (Slot.field (m, op)).length) after ∧
      e'.diagnostics = e.diagnostics := by
  have hfilled' : Slot.IsFilled (m, op.withConst v) := fun _ => rfl
  have hnotes : Slot.notes (m, op) = [] := by
    rw [Slot.notes, hv]
  have hcheck' := check_split hcheck h h' hlength hfilled'
    (Operand.fits_withConst hfits hv hleast hgreatest)
  obtain ⟨e', he'⟩ := exists_encode (Nat.le_trans (length_le f hf) (by decide)) hcheck'
  obtain ⟨-, hlayout'⟩ := hasLayout_of_encode he'
  refine ⟨e', he', hlayout'.code, ?_, ?_⟩
  · rw [hlayout'.relocations, h', requestsFrom_append, requestsFrom, Slot.length_field hfilled,
      Slot.length_field hfilled']
    rfl
  · rw [hlayout'.diagnostics, he.diagnostics, h', h, List.flatMap_append, List.flatMap_append,
      List.flatMap_cons, List.flatMap_cons, hnotes,
      Slot.notes_of_inRange (s := (m, op.withConst v)) rfl hleast hgreatest]

end

/-- A displacement is counted from the end of the instruction, as its field is the last.
Where it is small enough for the field, the distance has not wrapped around. -/
theorem displacement_eq {f : Form} (hf : f ∈ all) {ops : List Operand}
    (hcheck : f.check ops = .ok ()) {before after : List Slot} {m : Mode} {op : Operand}
    (h : f.emission (f.slots ops) = before ++ (m, op) :: after) {start : Nat}
    (hstart : start = f.opcodeWidth + (before.map fun s => s.field.length).sum)
    {address : UInt32} {sum v : Int}
    (hv : v = Quantity.wrap (if m = .relative then sum - (address.toNat + start + 1) else sum))
    (hleast : m.range.1 ≤ v) (hgreatest : v ≤ m.range.2) :
    v = if m = .relative then Quantity.wrap sum - (address.toNat + f.length)
      else Quantity.wrap sum := by
  obtain ⟨hlength, hslots⟩ := check_eq_ok_iff.mp hcheck
  by_cases hrelative : m = .relative
  · have hlast := sum_before_relative hf hlength (fun t ht => (hslots t ht).1) hrelative h
    have hend : start + 1 = f.length := by
      rw [hstart, length]
      omega
    have haddress := address.toNat_lt
    have hshort := f.length_le hf
    have hsum := Quantity.fits_iff.mp (Quantity.fits_wrap sum)
    have hsmall := m.range_small
    rw [if_pos hrelative, ← Quantity.wrap_wrap_sub] at hv
    rw [if_pos hrelative, hv]
    rw [Quantity.wrap_of_small (by omega) (by omega) (by omega) (by omega)]
    omega
  · rw [if_neg hrelative] at hv ⊢
    exact hv

/-- **A request does what a constant would have done.** One of the operands is a symbol,
which may be in any slot of any form that takes a value. Its request is among those of the
encoded instruction. If it can be carried out on an instruction at some address, then the
form takes the value of the symbol, with its addend, in place of the symbol; the distance
to the end of the instruction if the slot is for a displacement. The bytes are those with
the request carried out, the requests are all others, and there is no other note. Value and
addend are added in 64 bits, which is exact wherever nothing overflows. -/
theorem encode_set_of_apply {f : Form} (hf : f ∈ all) {ops : List Operand} {e : Encoding}
    (he : f.encode ops = .ok e) {i : Nat} {m : Mode} {op : Operand} {r : SymbolRef}
    (hm : f.modes[i]? = some m) (hop : ops[i]? = some op) (hv : op.value = some (.symbol r))
    (htakes : m.takesValue = true) :
    ∃ q front behind, Slot.requests (f.opcodeWidth - 1) (f.fieldStart i) (m, op) = [q] ∧
      e.relocations = front ++ q :: behind ∧
      ∀ (address : UInt32) (target : Int) (patched : List UInt8),
        q.apply e.code.toList address target = (patched, none) →
        let v := Quantity.wrap (target + r.addend)
        ∃ e', f.encode (ops.set i (op.withConst
            (if m = .relative then v - (address.toNat + f.length) else v))) = .ok e' ∧
          e'.code.toList = patched ∧ e'.relocations = front ++ behind ∧
          e'.diagnostics = e.diagnostics := by
  obtain ⟨hcheck, hlayout⟩ := hasLayout_of_encode he
  obtain ⟨hlength, hslots⟩ := check_eq_ok_iff.mp hcheck
  obtain ⟨before, after, hself, hstart, hset⟩ := exists_split hlength hm hop
  have hmem : ∀ t ∈ before ++ (m, op) :: after, t.IsFilled ∧ t.2.fits t.1 = true := fun t ht =>
    hslots t (f.mem_emission.mp (hself ▸ ht))
  obtain ⟨hfilled, hfits⟩ := hmem (m, op) (List.mem_append_right _ List.mem_cons_self)
  have hbefore : before.map (fun s => s.1.width) = before.map fun s => s.field.length :=
    List.map_congr_left fun t ht => (Slot.length_field (hmem t (List.mem_append_left _ ht)).1).symm
  rw [hbefore] at hstart
  obtain ⟨q, hrequest⟩ := Slot.exists_requests htakes hv (f.opcodeWidth - 1) (f.fieldStart i)
  refine ⟨q, requestsFrom (f.opcodeWidth - 1) f.opcodeWidth before,
    requestsFrom (f.opcodeWidth - 1) (f.opcodeWidth +
      (before.map fun s => s.field.length).sum + (Slot.field (m, op)).length) after,
    hrequest, ?_, ?_⟩
  · rw [hlayout.relocations, hself, requestsFrom_append, requestsFrom, ← hstart, hrequest]
    rfl
  · intro address target patched happly sum
    obtain ⟨v, hvalue, hleast, hgreatest, hpatch⟩ := layout_of_apply hlayout hself hstart hv
      (fun n hn => Slot.zero_of_symbol hfits hn hv) hrequest happly
    replace hvalue := displacement_eq hf hcheck hself hstart hvalue hleast hgreatest
    obtain ⟨e', he', hcode, hrelocations, hdiagnostics⟩ := exists_encode_withConst hf hcheck
      hlayout hself (hset (op.withConst v)) List.length_set hfilled hfits hv hleast hgreatest
    rw [← hvalue]
    exact ⟨e', he', hcode.trans (hpatch _ (hset _)), hrelocations, hdiagnostics⟩

/-- The branch of a bit test gets its displacement while the address and the bit number are
still symbols. -/
theorem encode_set_of_apply_btjt :
    (⟨"btjt", [.longMem, .bit 0, .relative], 0x7200⟩ : Form) ∈ all ∧
      ∃ e e', (⟨"btjt", [.longMem, .bit 0, .relative], 0x7200⟩ : Form).encode
          [.symbol "port", .withValue .immediate (.ofName "ready"), .symbol "loop"] = .ok e ∧
        (⟨4, .relative8, "loop", 0, .nowhere⟩ : Relocation).apply e.code.toList 0x8000 0x8010 =
          ([0x72, 0x00, 0xAA, 0xAA, 0x0B], none) ∧
        (⟨"btjt", [.longMem, .bit 0, .relative], 0x7200⟩ : Form).encode
          [.symbol "port", .withValue .immediate (.ofName "ready"), .memory 0x0B] = .ok e' ∧
        e'.code.toList = [0x72, 0x00, 0xAA, 0xAA, 0x0B] ∧
        e'.diagnostics = e.diagnostics := by
  have hmem : (⟨"btjt", [.longMem, .bit 0, .relative], 0x7200⟩ : Form) ∈ all := by
    decide +kernel
  have he : (⟨"btjt", [.longMem, .bit 0, .relative], 0x7200⟩ : Form).encode
      [.symbol "port", .withValue .immediate (.ofName "ready"), .symbol "loop"] =
        .ok ⟨⟨[0x72, 0x00, 0xAA, 0xAA, 0xAA], by decide⟩,
          [⟨2, .abs16, "port", 0, .nowhere⟩, ⟨1, .bitNumber, "ready", 0, .nowhere⟩,
            ⟨4, .relative8, "loop", 0, .nowhere⟩], []⟩ :=
    rfl
  obtain ⟨q, front, behind, hrequest, -, hall⟩ := encode_set_of_apply hmem he (i := 2) rfl rfl rfl
    rfl
  obtain rfl : (⟨4, .relative8, "loop", 0, .nowhere⟩ : Relocation) = q :=
    List.head_eq_of_cons_eq hrequest
  have happly : (⟨4, .relative8, "loop", 0, .nowhere⟩ : Relocation).apply
      [0x72, 0x00, 0xAA, 0xAA, 0xAA] 0x8000 0x8010 =
        ([0x72, 0x00, 0xAA, 0xAA, 0x0B], none) := by
    decide +kernel
  obtain ⟨e', he', hcode, -, hdiagnostics⟩ := hall 0x8000 0x8010 _ happly
  have hdistance : Quantity.wrap ((0x8010 : Int) + SymbolRef.addend { name := "loop" }) -
      ((0x8000 : UInt32).toNat +
        Form.length ⟨"btjt", [.longMem, .bit 0, .relative], 0x7200⟩) = 0x0B := by
    decide +kernel
  rw [if_pos rfl, hdistance] at he'
  exact ⟨hmem, _, e', he, happly, he', hcode, hdiagnostics⟩

end Form

end Stm8
