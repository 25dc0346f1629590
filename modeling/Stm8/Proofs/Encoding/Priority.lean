import Stm8.Proofs.Encoding.BitNumber
import Stm8.Proofs.Encoding.Fitting
import Stm8.Proofs.Form.Shortening

/-!
# The order of the table finds shortest encodings

Selection takes the first form that accepts the operands and looks no further. That this
is a shortest one rests on one property of the table (`forms_in_order`): of two forms of a
family whose slots have the same categories, the later one is longer, unless it is the
form for another bit number. In the latter case it does not matter which one is taken,
since a constant bit number moves the opcode of both to the same one (`encode_withBit`).

> `resolve_shortest`: no form of the mnemonic that accepts the operands is shorter than
> the one that is selected, and one of the same length encodes them alike.
-/

namespace Stm8

namespace Form

/-! ## The table -/

/-- Later forms of a family that have slots of the same categories are longer, or are for
another bit number. -/
theorem forms_in_order :
    ∀ family ∈ families, family.forms.Pairwise fun f g =>
      f.modes.map Mode.kind = g.modes.map Mode.kind →
        f.length < g.length ∨ ∃ k : Fin 8, g = f.withBit k := by
  decide +kernel

/-- The forms that selection looks at are those of the family of any one of them. -/
theorem filter_hasMnemonic {family : Family} (hfamily : family ∈ families) {f : Form}
    (hf : f ∈ family.forms) {m : String} (hm : f.hasMnemonic m = true) :
    all.filter (·.hasMnemonic m) = family.forms := by
  have hmem : f ∈ all := mem_all_iff.mpr ⟨family, hfamily, hf⟩
  have hlower : Text.lower m = family.mnemonic := by
    rw [← (hasMnemonic_iff hmem m).mp hm, Family.mnemonic_eq hf]
  calc all.filter (·.hasMnemonic m)
      = all.filter (·.mnemonic = family.mnemonic) := by
        refine List.filter_congr fun g hg => ?_
        rw [Bool.eq_iff_iff, hasMnemonic_iff hg, hlower, decide_eq_true_iff]
    _ = family.forms := filter_mnemonic nodup_mnemonics hfamily

end Form

/-! ## The form for another bit number -/

/-- The slot with bit number `k`, if it is a slot for a bit number. -/
def Slot.withBit (k : Fin 8) (s : Slot) : Slot :=
  (s.1.withBit k, s.2)

theorem Slot.field_withBit (k : Fin 8) (s : Slot) : (s.withBit k).field = s.field := by
  obtain ⟨m, op⟩ := s
  cases m <;> rfl

theorem Slot.notes_withBit (k : Fin 8) (s : Slot) : (s.withBit k).notes = s.notes := by
  obtain ⟨m, op⟩ := s
  cases m <;> rfl

theorem Slot.requests_withBit (k : Fin 8) (last start : Nat) (s : Slot) :
    (s.withBit k).requests last start = s.requests last start := by
  obtain ⟨m, op⟩ := s
  cases m <;> rfl

theorem Slot.bit?_withBit (k : Fin 8) (s : Slot) : (s.withBit k).bit? = s.bit? := by
  obtain ⟨m, kind, value, span⟩ := s
  cases m with
  | bit n => rcases value with _ | (v | r) <;> rfl
  | _ => rfl

/-- What fits a slot for a bit number other than zero is that bit number. -/
theorem Slot.isSome_bit?_of_fits {s : Slot} (h : s.2.fits s.1 = true) {n : Fin 8}
    (hn : s.1.bit? = some n) (hne : n ≠ 0) : s.bit?.isSome = true := by
  obtain ⟨m, kind, value, span⟩ := s
  obtain ⟨n', rfl⟩ : ∃ n', m = .bit n' := by
    cases m with
    | bit n' => exact ⟨n', rfl⟩
    | _ => cases hn
  obtain rfl : n' = n := Option.some.inj hn
  obtain rfl : kind = .immediate := kind_of_fits h
  have hconst : value.bind Value.const? = some (n'.val : Int) := by
    rcases Bool.or_eq_true_iff.mp (show (n' == 0 || _) = true from h) with hzero | hconst
    · exact absurd (beq_iff_eq.mp hzero) hne
    · exact beq_iff_eq.mp hconst
  obtain ⟨v, rfl, hv⟩ := Option.bind_eq_some_iff.mp hconst
  cases v with
  | symbol r => cases hv
  | const v =>
    obtain rfl : v = (n'.val : Int) := Option.some.inj hv
    have hrange : (0 : Int) ≤ n'.val ∧ (n'.val : Int) ≤ 7 := by omega
    unfold bit?
    simp only [Mode.bit?, hrange, and_self, dif_pos, Option.isSome_some]

/-- The requests do not depend on the bit number of the slots. -/
theorem requestsFrom_withBit (k : Fin 8) (last start : Nat) (slots : List Slot) :
    requestsFrom last start (slots.map (Slot.withBit k)) = requestsFrom last start slots := by
  induction slots generalizing start with
  | nil => rfl
  | cons s slots ih =>
    rw [List.map_cons, requestsFrom, requestsFrom, Slot.requests_withBit, Slot.field_withBit, ih]

namespace Form

section

variable {f : Form} {k n : Fin 8} {ops : List Operand}

theorem slots_withBit (f : Form) (k : Fin 8) (ops : List Operand) :
    (f.withBit k).slots ops = (f.slots ops).map (Slot.withBit k) := by
  rw [slots, slots, modes_withBit, List.zip_map_left]
  rfl

/-- The changed form is for the changed bit number. -/
theorem bit?_withBit (hn : f.bit? = some n) (k : Fin 8) : (f.withBit k).bit? = some k := by
  have hmodes : ∀ modes : List Mode, modes.findSome? Mode.bit? = some n →
      (modes.map (Mode.withBit k)).findSome? Mode.bit? = some k := by
    intro modes
    induction modes with
    | nil => intro h; cases h
    | cons m modes ih =>
      intro h
      cases m with
      | bit n' => rfl
      | _ => exact ih h
  rw [bit?, withBit, hn]
  exact hmodes f.modes hn

/-- Changing the bit number of a form does not change which one the operands select. -/
theorem chosenBit?_withBit (f : Form) (k : Fin 8) (ops : List Operand) :
    (f.withBit k).chosenBit? ops = f.chosenBit? ops := by
  rw [chosenBit?, chosenBit?, slots_withBit, List.findSome?_map]
  exact congrArg (List.findSome? · _) (funext (Slot.bit?_withBit k))

/-- A form for a bit number other than zero accepts operands that select one only. -/
theorem isSome_chosenBit? (h : f.accepts ops = true) (hn : f.bit? = some n) (hne : n ≠ 0) :
    (f.chosenBit? ops).isSome = true := by
  obtain ⟨m, hm, hbit⟩ := List.exists_of_findSome?_eq_some hn
  rw [← modes_eq_map_slots (length_of_accepts h)] at hm
  obtain ⟨s, hs, rfl⟩ := List.mem_map.mp hm
  rw [chosenBit?, List.isSome_findSome?, List.any_eq_true]
  exact ⟨s, hs, Slot.isSome_bit?_of_fits (fits_of_accepts h s hs) hbit hne⟩

/-- The opcodes of forms for different bit numbers are equally long. -/
theorem opcodeWidth_withBit (hf : f ∈ all) (hn : f.bit? = some n) (k : Fin 8) :
    (f.withBit k).opcodeWidth = f.opcodeWidth := by
  rw [← length_opcodeBytes, opcodeBytes_withBit hf hn, List.length_modify, length_opcodeBytes]

/-- Forms for different bit numbers are equally long. -/
theorem length_withBit (hf : f ∈ all) (k : Fin 8) : (f.withBit k).length = f.length := by
  cases hn : f.bit? with
  | none => rw [withBit, hn]
  | some n =>
    have hwidths : (f.withBit k).modes.map Mode.width = f.modes.map Mode.width := by
      rw [modes_withBit, List.map_map]
      exact List.map_congr_left fun m _ => by cases m <;> rfl
    rw [length, length, opcodeWidth_withBit hf hn, fieldWidth, fieldWidth, hwidths]

/-- What is missing in the opcode for another bit number is made up for by the
operands. -/
theorem sum_shift_withBit (hf : f ∈ all) (hg : f.withBit k ∈ all) (hn : f.bit? = some n)
    (haccepts : f.accepts ops = true) (haccepts' : (f.withBit k).accepts ops = true) :
    ((f.slots ops).map Slot.shift).sum =
      (k.val : Int) - n.val + (((f.withBit k).slots ops).map Slot.shift).sum := by
  have hk := bit?_withBit hn k
  have hsum := sum_shift (f.slots ops)
    (by rw [modes_eq_map_slots (length_of_accepts haccepts)]; exact bit_slots f hf)
  have hsum' := sum_shift ((f.withBit k).slots ops)
    (by rw [modes_eq_map_slots (length_of_accepts haccepts')]; exact bit_slots _ hg)
  rw [modes_eq_map_slots (length_of_accepts haccepts),
    show f.modes.findSome? Mode.bit? = some n from hn] at hsum
  rw [modes_eq_map_slots (length_of_accepts haccepts'),
    show (f.withBit k).modes.findSome? Mode.bit? = some k from hk,
    show ((f.withBit k).slots ops).findSome? Slot.bit? = f.chosenBit? ops from
      chosenBit?_withBit f k ops] at hsum'
  rw [hsum, hsum', show (f.slots ops).findSome? Slot.bit? = f.chosenBit? ops from rfl]
  cases hchosen : f.chosenBit? ops with
  | some c =>
    show (c.val : Int) - n.val = (k.val : Int) - n.val + ((c.val : Int) - k.val)
    omega
  | none =>
    -- operands that select no bit number fit the slot for bit zero only
    have hzero : n = 0 := by
      by_cases hne : n = 0
      · exact hne
      · have hsome := isSome_chosenBit? haccepts hn hne
        rw [hchosen] at hsome
        cases hsome
    have hzero' : k = 0 := by
      by_cases hne : k = 0
      · exact hne
      · have hsome := isSome_chosenBit? haccepts' hk hne
        rw [chosenBit?_withBit, hchosen] at hsome
        cases hsome
    rw [hzero, hzero']
    rfl

/-- Forms that differ in the bit number only encode operands alike, if both accept
them. -/
theorem encode_withBit (hf : f ∈ all) (hg : f.withBit k ∈ all)
    (haccepts : f.accepts ops = true) (haccepts' : (f.withBit k).accepts ops = true)
    {e e' : Encoding} (he : f.encode ops = .ok e) (he' : (f.withBit k).encode ops = .ok e') :
    e' = e := by
  cases hn : f.bit? with
  | none =>
    have hself : f.withBit k = f := by rw [withBit, hn]
    rw [hself, he] at he'
    exact (Except.ok.inj he').symm
  | some n =>
    have hbit : f.bit?.isSome = true := by rw [hn]; rfl
    have hbytes := opcodeBytes_withBit hf hn k
    have hwidth := opcodeWidth_withBit hf hn k
    have hsum := sum_shift_withBit hf hg hn haccepts haccepts'
    have hreversed : (f.withBit k).reversed = f.reversed := by
      rw [not_reversed_of_bit f hf hbit,
        not_reversed_of_bit _ hg (isSome_bit?_withBit k hbit)]
    have hslots : (f.withBit k).emission ((f.withBit k).slots ops) =
        (f.emission (f.slots ops)).map (Slot.withBit k) := by
      rw [slots_withBit, emission_congr hreversed, ← f.map_emission]
    have hlayout := (hasLayout_of_encode he).2
    have hlayout' := (hasLayout_of_encode he').2
    refine Encoding.eq_of_parts ?_ ?_ ?_
    · rw [hlayout.code, hlayout'.code, layout, layout, hslots, hbytes, hwidth, hsum,
        Encoding.modify_modify, List.map_map]
      exact congrArg (_ ++ List.flatten ·)
        (List.map_congr_left fun s _ => Slot.field_withBit k s)
    · rw [hlayout.relocations, hlayout'.relocations, hslots, hwidth, requestsFrom_withBit]
    · rw [hlayout.diagnostics, hlayout'.diagnostics, hslots, List.flatMap_map]
      exact congrArg (List.flatMap · _) (funext (Slot.notes_withBit k))

end

end Form

open Form

/-! ## Selection -/

/-- **Selection finds a shortest encoding.** Among the forms of the mnemonic that accept
the operands, none is shorter than the one that is selected, and one of the same length
encodes the operands to the same bytes, with the same requests and notes. -/
theorem resolve_shortest {m : String} {ops : List Operand} {f : Form}
    (hvalues : ∀ op ∈ ops, op.IsFilled) (h : resolve m ops = .ok f) :
    f ∈ all ∧ f.hasMnemonic m = true ∧ f.accepts ops = true ∧
      ∀ g ∈ all, g.hasMnemonic m = true → g.accepts ops = true →
        f.length ≤ g.length ∧
          (g.length = f.length → ∃ e, f.encode ops = .ok e ∧ g.encode ops = .ok e) := by
  obtain ⟨hf, hname, hfirst⟩ := of_resolve h
  refine ⟨hf, hname, hfirst, fun g hg hname' haccepts => ?_⟩
  obtain ⟨family, hfamily, hmem⟩ := mem_all_iff.mp hg
  rw [resolve, filter_hasMnemonic hfamily hmem hname'] at h
  have hfind : family.forms.find? (·.accepts ops) = some f := select_eq_ok_iff.mp h
  obtain ⟨-, before, behind, hforms, hbefore⟩ := List.find?_eq_some_iff_append.mp hfind
  obtain ⟨e, he⟩ := exists_encode_of_accepts hf hfirst hvalues
  obtain ⟨e', he'⟩ := exists_encode_of_accepts hg haccepts hvalues
  have horder := forms_in_order family hfamily
  rw [hforms, List.pairwise_append, List.pairwise_cons] at horder
  rw [hforms] at hmem
  rcases List.mem_append.mp hmem with hearlier | hmem
  · -- selection would have taken it
    have hskipped := hbefore g hearlier
    rw [haccepts] at hskipped
    cases hskipped
  · rcases List.mem_cons.mp hmem with rfl | hlater
    · exact ⟨Nat.le_refl _, fun _ => ⟨e, he, he⟩⟩
    · have hkinds : f.modes.map Mode.kind = g.modes.map Mode.kind :=
        (map_kind_of_accepts hfirst).trans (map_kind_of_accepts haccepts).symm
      rcases horder.2.1.1 g hlater hkinds with hlonger | ⟨k, rfl⟩
      · exact ⟨Nat.le_of_lt hlonger, fun hsame => absurd hsame (by omega)⟩
      · refine ⟨Nat.le_of_eq (length_withBit hf k).symm, fun _ => ⟨e, he, ?_⟩⟩
        rw [← encode_withBit hf hg hfirst haccepts he he']
        exact he'

/-- A bit number that has a form of its own, behind the one that is selected. -/
theorem resolve_shortest_bset :
    (∀ op ∈ [Operand.memory 0x5000, .immediate 3], op.IsFilled) ∧
      resolve "BSET" [.memory 0x5000, .immediate 3] = .ok ⟨"bset", [.longMem, .bit 0], 0x7210⟩ ∧
      ∃ e, Form.encode ⟨"bset", [.longMem, .bit 0], 0x7210⟩ [.memory 0x5000, .immediate 3] =
          .ok e ∧
        Form.encode ⟨"bset", [.longMem, .bit 3], 0x7216⟩ [.memory 0x5000, .immediate 3] =
          .ok e := by
  have hvalues : ∀ op ∈ [Operand.memory 0x5000, .immediate 3], op.IsFilled := by decide
  have hresolve : resolve "BSET" [.memory 0x5000, .immediate 3] =
      .ok ⟨"bset", [.longMem, .bit 0], 0x7210⟩ :=
    select_eq_ok_iff.mpr (by decide +kernel)
  have hmem : (⟨"bset", [.longMem, .bit 3], 0x7216⟩ : Form) ∈ Form.all := by decide +kernel
  obtain ⟨-, -, -, hshortest⟩ := resolve_shortest hvalues hresolve
  exact ⟨hvalues, hresolve, (hshortest _ hmem (by decide) (by decide)).2 (by decide)⟩

end Stm8
