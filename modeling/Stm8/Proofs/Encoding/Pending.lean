import Stm8.Proofs.Relocation.Pending

/-!
# The requests of an instruction

An instruction asks for the fields of its symbols, one behind the other behind the opcode,
and perhaps for a bit number in the last byte of the opcode. The requests stand in the
order of the fields, so the one for a bit number may follow others with greater offsets.

> `arePending_of_encode`: the requests of an encoded instruction are pending.
-/

namespace Stm8

open Relocation (IsApart ArePending)

/-- Where requests are: in the last byte of the opcode for a bit number, and in the fields
for all else. -/
theorem offset_of_mem_requestsFrom {last : Nat} {slots : List Slot} {r : Relocation} :
    ∀ {start : Nat}, r ∈ requestsFrom last start slots →
      (r.offset = last ∧ r.kind = .bitNumber ∧ (slots.map Prod.fst).filterMap Mode.bit? ≠ []) ∨
        start ≤ r.offset := by
  induction slots with
  | nil => intro start hr; cases hr
  | cons s slots ih =>
    intro start hr
    rw [List.map_cons, List.filterMap_cons]
    rcases List.mem_append.mp hr with hr | hr
    · rcases s.requests_cases last start with hnone | ⟨-, q, -, hkind, -, -, hoffset, hrequest⟩
      · rw [hnone] at hr
        cases hr
      · rw [hrequest, List.mem_singleton] at hr
        subst hr
        rcases Slot.size_of_relocation? hkind with ⟨hbit, hq⟩ | ⟨hbit, -, -⟩
        · obtain ⟨n, hn⟩ := Option.isSome_iff_exists.mp hbit
          rw [if_pos hbit] at hoffset
          rw [hn]
          exact Or.inl ⟨hoffset, hq, List.cons_ne_nil n _⟩
        · rw [hbit, if_neg (by simp)] at hoffset
          exact Or.inr (Nat.le_of_eq hoffset.symm)
    · rcases ih hr with ⟨hoffset, hkind, hbits⟩ | hoffset
      · refine Or.inl ⟨hoffset, hkind, ?_⟩
        cases s.1.bit? with
        | none => exact hbits
        | some n => exact List.cons_ne_nil n _
      · exact Or.inr (by omega)

/-- The fields of an instruction do not overlap. -/
theorem apart_requestsFrom {last : Nat} {slots : List Slot} :
    ∀ {start : Nat}, last < start →
      ((slots.map Prod.fst).filterMap Mode.bit?).length ≤ 1 →
      (requestsFrom last start slots).Pairwise IsApart := by
  induction slots with
  | nil => exact fun _ _ => List.Pairwise.nil
  | cons s slots ih =>
    intro start hlast hone
    rw [List.map_cons, List.filterMap_cons] at hone
    have hrest : ((slots.map Prod.fst).filterMap Mode.bit?).length ≤ 1 := by
      cases hs : s.1.bit? with
      | none =>
        rw [hs] at hone
        exact hone
      | some n =>
        rw [hs, List.length_cons] at hone
        omega
    have hbehind : (requestsFrom last (start + s.field.length) slots).Pairwise IsApart :=
      ih (by omega) hrest
    rw [requestsFrom]
    rcases s.requests_cases last start with hnone | ⟨r, q, hv, hkind, -, -, hoffset, hrequest⟩
    · rw [hnone]
      exact hbehind
    · rw [hrequest, List.singleton_append, List.pairwise_cons]
      refine ⟨fun t ht => ?_, hbehind⟩
      unfold IsApart
      rcases Slot.size_of_relocation? hkind with ⟨hbit, hq⟩ | ⟨hbit, -, hsize⟩
      · -- the bit number, in front of all fields
        rw [if_pos hbit] at hoffset
        have hone' : q.kind.size = 1 := by rw [hq]; rfl
        rcases offset_of_mem_requestsFrom ht with ⟨-, -, hbits⟩ | hfield
        · obtain ⟨n, hn⟩ := Option.isSome_iff_exists.mp hbit
          rw [hn, List.length_cons] at hone
          exact absurd (List.length_eq_zero_iff.mp (by omega)) hbits
        · omega
      · rw [hbit, if_neg (by simp)] at hoffset
        have hlength : s.field.length = s.1.width := by
          rw [Slot.field, hv]
          exact List.length_replicate
        rcases offset_of_mem_requestsFrom ht with ⟨hopcode, hbitNumber, -⟩ | hfield
        · have hone' : t.kind.size = 1 := by rw [hbitNumber]; rfl
          omega
        · omega

/-- The fields of symbols are filled up. -/
theorem filled_requestsFrom {last : Nat} {slots : List Slot} {r : Relocation} :
    ∀ {front : List UInt8}, r ∈ requestsFrom last front.length slots → r.kind ≠ .bitNumber →
      r.field (front ++ (slots.map Slot.field).flatten) =
        List.replicate r.kind.size filler := by
  induction slots with
  | nil => intro front hr; cases hr
  | cons s slots ih =>
    intro front hr hkind
    rw [List.map_cons, List.flatten_cons]
    rcases List.mem_append.mp hr with hr | hr
    · rcases s.requests_cases last front.length with
        hnone | ⟨r', q, hv, hq, -, -, hoffset, hrequest⟩
      · rw [hnone] at hr
        cases hr
      · rw [hrequest, List.mem_singleton] at hr
        subst hr
        rcases Slot.size_of_relocation? hq with ⟨-, hbit⟩ | ⟨hbit, -, hsize⟩
        · exact absurd hbit hkind
        · rw [hbit, if_neg (by simp)] at hoffset
          have hfield : s.field = List.replicate r.kind.size filler := by
            rw [Slot.field, hv, hsize]
          rw [Relocation.field, hoffset, List.drop_left, hfield,
            List.take_left' List.length_replicate]
    · rw [← List.append_assoc]
      refine ih ?_ hkind
      rw [List.length_append]
      exact hr

/-- The requests of an encoded instruction are pending. -/
theorem arePending_of_encode {f : Form} (hf : f ∈ Form.all) {ops : List Operand} {e : Encoding}
    (h : f.encode ops = .ok e) : ArePending e.relocations e.code.toList := by
  obtain ⟨hcheck, hlayout⟩ := Form.hasLayout_of_encode h
  have hlength := (Form.check_eq_ok_iff.mp hcheck).1
  have hpos := f.opcodeWidth_pos
  have hlast : f.opcodeWidth - 1 < f.opcodeWidth := by omega
  -- the opcode, which is as long as before when a constant has moved it on
  let front := f.opcodeBytes.modify (f.opcodeWidth - 1)
    (· + 2 * UInt8.ofInt ((f.slots ops).map Slot.shift).sum)
  have hfront : front.length = f.opcodeWidth := by
    rw [List.length_modify, Form.length_opcodeBytes]
  have hbits : (((f.emission (f.slots ops)).map Prod.fst).filterMap Mode.bit?).length ≤ 1 := by
    have hone := Form.bit_slots f hf
    rw [← Form.modes_eq_map_slots hlength] at hone
    unfold Form.emission
    split
    · rw [List.map_reverse, List.filterMap_reverse, List.length_reverse]
      exact hone
    · exact hone
  have hcode : e.code.toList = front ++ ((f.emission (f.slots ops)).map Slot.field).flatten :=
    hlayout.code
  rw [hcode, hlayout.relocations]
  constructor
  · intro r hr
    have hinside := fitsIn_requestsFrom hlast r hr
    rw [List.length_append, hfront, List.length_flatten, List.map_map]
    exact hinside
  · exact apart_requestsFrom hlast hbits
  · intro r hr
    rw [← hfront] at hr
    exact filled_requestsFrom hr

end Stm8
