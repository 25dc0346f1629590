import Stm8.Proofs.Instruction.ReadBack
import Stm8.Proofs.Instruction.Written

/-!
# Names in place of numbers

An instruction may be written with names for the numbers in its fields. If every name has
the value of its number, carrying out the requests for the names puts the numbers back:

> `exists_encode_named`: what is written for a decoded instruction is encoded and patched
> to the decoded bytes.
-/

namespace Stm8

open Form
open Relocation (patch)

/-- The slot, written as a number. -/
def WrittenSlot.unnamed (s : WrittenSlot) : WrittenSlot :=
  { s with name := none }

/-- The operand with its number in the place of its symbol. -/
def Operand.resolved (value? : String → Option Int) (op : Operand) : Operand :=
  { op with value := (op.number? value?).map .const }

/-- Whether the names in the slot have the value of its number. -/
structure WrittenSlot.IsNamedBy (value? : String → Option Int) (s : WrittenSlot) : Prop where
  /-- Only numbers have names. -/
  absolute : s.name.isSome = true → s.mode.isAbsolute = true
  /-- The name has the value of the number. -/
  value : ∀ n, s.name = some n → value? n = some (s.field : Int)

namespace WrittenSlot

variable {value? : String → Option Int}

/-- A name stands for the number that it is written for. -/
theorem resolved_operand {s : WrittenSlot} (hs : s.IsNamedBy value?) :
    s.operand.resolved value? = s.unnamed.operand := by
  obtain ⟨mode, field, name, span⟩ := s
  cases name with
  | none => cases mode <;> rfl
  | some n =>
    have hvalue : value? n = some (field : Int) := hs.value n rfl
    have habsolute : mode.isAbsolute = true := hs.absolute rfl
    -- the sum with no addend is the number
    have hnumber : (value? n).map (· + (0 : Int)) = some (field : Int) := by
      rw [hvalue]
      exact congrArg some (Int.add_zero _)
    cases mode <;> first
      | exact congrArg (fun v : Option Int => (⟨_, v.map Value.const, span⟩ : Operand)) hnumber
      | cases habsolute

/-- A symbol is written for a name. -/
theorem name_of_symbol {s : WrittenSlot} {r : SymbolRef} (h : s.operand.value = some (.symbol r)) :
    s.name = some r.name ∧ r.addend = 0 := by
  rcases s.value_cases with ⟨hv, -, -⟩ | ⟨n, -, hv⟩ | ⟨-, hv⟩ | ⟨-, mark, hv⟩
  · rw [hv] at h
    cases h
  · rw [hv] at h
    cases h
  · rw [hv] at h
    cases h
  · rw [hv] at h
    cases hname : s.name with
    | none =>
      rw [hname] at h
      cases h
    | some n =>
      rw [hname] at h
      cases h
      exact ⟨rfl, rfl⟩

end WrittenSlot

/-! ## Requests for names -/

theorem Mode.relocation?_of_isAbsolute {m : Mode} (h : m.isAbsolute = true)
    {kind : Relocation.Kind} (hkind : m.relocation? = some kind) :
    kind.isRelative = false ∧ kind.range = (0, 256 ^ m.width - 1) := by
  cases m <;> first
    | (obtain rfl := Option.some.inj hkind; exact ⟨rfl, rfl⟩)
    | cases h

section

variable {base : UInt32} {value? : String → Option Int} {f g : Form} {slots : List WrittenSlot}
  {short : Bool}

theorem shortened_eq_self (hmodes : slots.map WrittenSlot.mode = f.modes)
    (hsame : f.modes.map (Mode.shortened · short) = f.modes) {s : WrittenSlot} (hs : s ∈ slots) :
    s.mode.shortened short = s.mode := by
  rw [← hmodes, List.map_map] at hsame
  exact List.map_inj_left.mp hsame s hs

theorem isAbsolute_of_mem (h : g.StandsInFor f (operandsOf slots) short)
    (hmodes : slots.map WrittenSlot.mode = f.modes)
    (hsame : f.modes.map (Mode.shortened · short) = f.modes) {x : Mode × WrittenSlot}
    (hx : x ∈ g.modes.zip slots) : x.1.isAbsolute = x.2.mode.isAbsolute := by
  rw [← shortened_eq_self hmodes hsame (List.of_mem_zip hx).2]
  exact shape_eq (fun _ m => by cases m <;> rfl) h hmodes hx

/-- A number that is written fits a field, and so it is a quantity. -/
theorem WrittenSlot.fits_field {s : WrittenSlot} (h : s.IsValid) :
    Quantity.fits s.field = true := by
  have hwidth : s.mode.width ≤ 3 := by cases s.mode <;> simp [Mode.width]
  have hfield := Nat.lt_of_lt_of_le h.fits (Nat.pow_le_pow_right (by decide) hwidth)
  rw [Quantity.fits_iff]
  omega

/-- The request for a name has a number to write wherever the instruction stands. -/
theorem isSome_number?_named (h : g.StandsInFor f (operandsOf slots) short)
    (hmodes : slots.map WrittenSlot.mode = f.modes) (hvalid : ∀ s ∈ slots, s.IsValid)
    (hsame : f.modes.map (Mode.shortened · short) = f.modes)
    (hnamed : ∀ s ∈ slots, s.IsNamedBy value?) {last start : Nat} {r : Relocation}
    (hr : r ∈ requestsFrom last start (g.emission (g.slots (operandsOf slots)))) (offset : Nat) :
    ((r.shift offset).number? base value?).isSome = true := by
  obtain ⟨s, hs, at', hr⟩ := exists_of_mem_requestsFrom hr
  rw [g.mem_emission] at hs
  obtain ⟨x, hx, rfl⟩ := mem_slots hs
  have hmem := (List.of_mem_zip hx).2
  rcases Slot.requests_cases (x.1, x.2.operand) last at' with
    hnone | ⟨ref, q, hv, hkind, hsymbol, haddend, -, hrequest⟩
  · rw [hnone] at hr
    cases hr
  · rw [hrequest, List.mem_singleton] at hr
    subst hr
    obtain ⟨hname, hzero⟩ := WrittenSlot.name_of_symbol hv
    have habsolute := (hnamed _ hmem).absolute (by rw [hname]; rfl)
    have hwidth := width_of_mem h hmodes hx
    rw [shortened_eq_self hmodes hsame hmem] at hwidth
    obtain ⟨hrelative, hrange⟩ := Mode.relocation?_of_isAbsolute
      (by rw [isAbsolute_of_mem h hmodes hsame hx]; exact habsolute) hkind
    have hfits := (hvalid _ hmem).fits
    rw [← hwidth, ← Int.ofNat_lt, Int.natCast_pow] at hfits
    have hvalue : (r.shift offset).value base x.2.field = x.2.field := by
      unfold Relocation.value
      rw [show (r.shift offset).kind.isRelative = false from hrelative,
        if_neg Bool.false_ne_true, show (r.shift offset).addend = 0 from haddend.trans hzero,
        Int.add_zero]
      exact Quantity.wrap_of_fits (WrittenSlot.fits_field (hvalid _ hmem))
    unfold Relocation.number?
    rw [show (r.shift offset).symbol = ref.name from hsymbol, (hnamed _ hmem).value _ hname]
    dsimp only
    rw [hvalue, show (r.shift offset).kind.range = _ from hrange, if_neg]
    · rfl
    · rw [Bool.or_eq_true, decide_eq_true_iff, decide_eq_true_iff]
      -- the number fits its field, so its name does too
      have hpos := Int.natCast_nonneg x.2.field
      show ¬ ((x.2.field : Int) < 0 ∨ (256 : Int) ^ x.1.width - 1 < x.2.field)
      replace hfits : (x.2.field : Int) < 256 ^ x.1.width := hfits
      omega

/-! ## Numbers in place of names -/

theorem eq_map_of_zip {α β : Type} {p : α → β} {as : List α} {bs : List β}
    (hlength : as.length = bs.length) (h : ∀ x ∈ as.zip bs, x.2 = p x.1) : bs = as.map p := by
  calc
    bs = (as.zip bs).map Prod.snd := (List.map_snd_zip (Nat.le_of_eq hlength.symm)).symm
    _ = (as.zip bs).map (p ∘ Prod.fst) := List.map_congr_left h
    _ = ((as.zip bs).map Prod.fst).map p := List.map_map.symm
    _ = as.map p := by rw [List.map_fst_zip (Nat.le_of_eq hlength)]

theorem Operand.resolved_of_settled {s t : Slot}
    (h : (t = s ∧ ∀ r, s.2.value = some (.symbol r) → False) ∨
      ∃ r target, s.2.value = some (.symbol r) ∧ value? r.name = some target ∧
        t = (s.1, { s.2 with value := some (.const (target + r.addend)) })) :
    t = (s.1, s.2.resolved value?) := by
  obtain ⟨m, op⟩ := s
  rcases h with ⟨rfl, hsymbol⟩ | ⟨r, target, hv, htarget, rfl⟩
  · replace hsymbol : ∀ r, op.value = some (.symbol r) → False := hsymbol
    have hkeep : (op.number? value?).map Value.const = op.value := by
      unfold Operand.number?
      cases hv : op.value with
      | none => rfl
      | some value =>
        cases value with
        | const v => rfl
        | symbol r => exact (hsymbol r hv).elim
    rw [Operand.resolved, hkeep]
  · replace hv : op.value = some (.symbol r) := hv
    have hnumber : op.number? value? = some (target + r.addend) := by
      unfold Operand.number?
      rw [hv]
      dsimp only
      rw [htarget]
      rfl
    rw [Operand.resolved, hnumber]
    rfl

/-- Once the names have their values, the operands are those that are written as
numbers. -/
theorem slots_settled_named (h : g.StandsInFor f (operandsOf slots) short)
    (hmodes : slots.map WrittenSlot.mode = f.modes) (hvalid : ∀ s ∈ slots, s.IsValid)
    (hsame : f.modes.map (Mode.shortened · short) = f.modes)
    (hnamed : ∀ s ∈ slots, s.IsNamedBy value?) (offset : Nat) :
    g.slots (g.settled base value? offset (operandsOf slots)) =
      g.slots (operandsOf (slots.map WrittenSlot.unnamed)) := by
  obtain ⟨hlength, hslots⟩ := check_eq_ok_iff.mp (check_written h hmodes)
  have hpairs : ∀ x ∈ (g.slots (operandsOf slots)).zip
      (g.slots (g.settled base value? offset (operandsOf slots))),
      x.2 = (x.1.1, x.1.2.resolved value?) := by
    intro x hx
    -- a symbol is written for a name, and only numbers have names
    have hsymbol : ∀ r, x.1.2.value = some (.symbol r) →
        x.1.1.takesValue = true ∧ x.1.1 ≠ .relative ∧
          ∀ target, value? r.name = some target → Quantity.fits (target + r.addend) = true := by
      intro r hv
      obtain ⟨y, hy, hxy⟩ := mem_slots (List.of_mem_zip hx).1
      have hmem := (List.of_mem_zip hy).2
      rw [hxy] at hv ⊢
      obtain ⟨hname, hzero⟩ := WrittenSlot.name_of_symbol hv
      have habsolute := (hnamed _ hmem).absolute (by rw [hname]; rfl)
      rw [← isAbsolute_of_mem h hmodes hsame hy, Mode.isAbsolute, Bool.and_eq_true,
        bne_iff_ne] at habsolute
      refine ⟨by rw [Mode.takesValue, habsolute.1]; rfl, habsolute.2, fun target htarget => ?_⟩
      rw [(hnamed _ hmem).value _ hname] at htarget
      rw [← Option.some.inj htarget, hzero, Int.add_zero]
      exact WrittenSlot.fits_field (hvalid _ hmem)
    apply Operand.resolved_of_settled
    rcases settled_cases h.mem hlength (fun s hs => (hslots s hs).1)
        (fun r hr => isSome_number?_named h hmodes hvalid hsame hnamed hr offset) hx with
      ⟨hkeep, hnone⟩ | ⟨r, target, v, hv, htarget, hconst, -, -, hnumber⟩
    · refine Or.inl ⟨hkeep, fun r hv => ?_⟩
      rw [(hsymbol r hv).1] at hnone
      cases hnone r hv
    · obtain ⟨-, hrelative, hfits⟩ := hsymbol r hv
      rw [if_neg hrelative, Quantity.wrap_of_fits (hfits target htarget)] at hnumber
      rw [hnumber] at hconst
      exact Or.inr ⟨r, target, hv, htarget, hconst⟩
  have heq : g.slots (g.settled base value? offset (operandsOf slots)) =
      (g.slots (operandsOf slots)).map fun s => (s.1, s.2.resolved value?) :=
    eq_map_of_zip (length_slots_settled g offset hlength).symm hpairs
  -- slot by slot, a name is replaced by the number it was written for
  rw [heq]
  unfold Form.slots operandsOf
  rw [List.map_map, List.zip_map_right, List.zip_map_right, List.map_map]
  refine List.map_congr_left fun x hx => ?_
  show (x.1, x.2.operand.resolved value?) = (x.1, x.2.unnamed.operand)
  rw [WrittenSlot.resolved_operand (hnamed _ (List.of_mem_zip hx).2)]

theorem Mode.isSome_bit?_withBit (k : Fin 8) (m : Mode) :
    (Mode.withBit k m).bit?.isSome = m.bit?.isSome := by
  cases m <;> rfl

/-- Names select no other bit number than numbers. -/
theorem filled_unnamed (h : g.StandsInFor f (operandsOf slots) short)
    (hmodes : slots.map WrittenSlot.mode = f.modes) :
    g.filled (operandsOf (slots.map WrittenSlot.unnamed)) = g.filled (operandsOf slots) := by
  have hbits : g.chosenBit? (operandsOf (slots.map WrittenSlot.unnamed)) =
      g.chosenBit? (operandsOf slots) := by
    unfold Form.chosenBit? Form.slots operandsOf
    rw [List.map_map, List.zip_map_right, List.zip_map_right, List.findSome?_map,
      List.findSome?_map]
    refine findSome?_congr fun x hx => ?_
    have hbit : x.1.bit?.isSome = x.2.mode.bit?.isSome := by
      have hshape := @shape_eq _ _ _ _ Bool (fun m => m.bit?.isSome) Mode.isSome_bit?_withBit
        h hmodes x hx
      rw [hshape]
      cases x.2.mode <;> cases short <;> rfl
    show Slot.bit? (x.1, x.2.unnamed.operand) = Slot.bit? (x.1, x.2.operand)
    obtain ⟨m, mode, field, name, span⟩ := x
    cases m with
    | bit n =>
      cases mode with
      | bit k => rfl
      | _ => cases hbit
    | _ => rfl
  unfold Form.filled
  rw [hbits]

/-- Carrying out the requests for the names leads to the layout of the numbers. -/
theorem patch_named (h : g.StandsInFor f (operandsOf slots) short)
    (hmodes : slots.map WrittenSlot.mode = f.modes) (hvalid : ∀ s ∈ slots, s.IsValid)
    (hsame : f.modes.map (Mode.shortened · short) = f.modes)
    (hnamed : ∀ s ∈ slots, s.IsNamedBy value?) {e : Encoding}
    (he : g.HasLayout (operandsOf slots) e) (offset : Nat) :
    patch base value? offset e.relocations e.code.toList =
      f.opcodeBytes ++
        (f.emission (slots.map fun s => bigEndian s.mode.width s.field)).flatten := by
  obtain ⟨hlength, hslots⟩ := check_eq_ok_iff.mp (check_written h hmodes)
  have hnumbers : ∀ r ∈ e.relocations, ((r.shift offset).number? base value?).isSome = true := by
    rw [he.relocations]
    exact fun r hr => isSome_number?_named h hmodes hvalid hsame hnamed hr offset
  -- without names the same form gives the same layout at once
  have hunnamed : g.layout (operandsOf (slots.map WrittenSlot.unnamed)) =
      f.opcodeBytes ++ (f.emission ((slots.map WrittenSlot.unnamed).map fun s =>
        bigEndian s.mode.width s.field)).flatten := by
    refine layout_of_numbers h.mem ?_ ?_ ?_ h.reversed ?_
    · rw [List.length_map]
      exact length_written h.accepts
    · rw [map_width_written h hmodes hsame, List.map_map]
      rfl
    · rw [filled_unnamed h hmodes]
      exact h.opcode hsame
    · rw [List.forall_mem_map]
      exact fun s _ => rfl
  rw [patch_layout hlength he hnumbers fun s hs n r hbit hv =>
    Slot.zero_of_symbol (hslots s hs).2 hbit hv]
  unfold Form.layout at hunnamed ⊢
  rw [slots_settled_named h hmodes hvalid hsame hnamed offset, hunnamed, List.map_map]
  rfl

end

/-! ## Instructions -/

/-- A long slot is shortened neither for a name nor for a number that is not small. -/
theorem shortened_eq_of_long {s : WrittenSlot} {short : Bool}
    (hlong : s.mode.short?.isSome = true → s.field < 0x100 → s.name.isSome = true)
    (hshort : s.mode.isIndirect = true → s.isShort = short) :
    s.mode.shortened short = s.mode := by
  by_cases hsome : s.mode.short?.isSome = true
  · have hfalse : s.isShort = false := by
      rw [WrittenSlot.isShort_of_short? hsome]
      cases hname : s.name with
      | some n => rfl
      | none =>
        refine decide_eq_false fun hsmall => ?_
        have hcontra := hlong hsome hsmall
        rw [hname] at hcontra
        cases hcontra
    rw [← hshort (Mode.isIndirect_of_short? hsome), hfalse]
    rfl
  · exact Mode.shortened_of_short? (Option.not_isSome_iff_eq_none.mp hsome) short

/-- What is written for a decoded instruction with names is encoded, and patched to the
decoded bytes wherever it stands. -/
theorem exists_encode_named {i : Instruction} {f : Form} {fields : List Nat}
    (hmade : i.IsMadeOf f fields) (hi : i.content = .known f fields) {names : Names}
    {value? : String → Option Int}
    (hnames : ∀ a n, names a = some n → IsReferable n ∧ value? n = some (a.toNat : Int))
    (hlong : ∀ s ∈ i.slots, s.1.short?.isSome = true → s.2 < 0x100 →
      (names (UInt32.ofNat s.2)).isSome = true)
    {parts : List Part} (hparts : parts.map Part.text = i.operands names) :
    ∃ ops g e, readOperands parts = .ok ops ∧ resolve f.mnemonic ops = .ok g ∧
      g.encode ops = .ok e ∧ e.diagnostics = [] ∧
      ∀ base offset,
        (∀ r ∈ e.relocations, ((r.shift offset).number? base value?).isSome = true) ∧
        patch base value? offset e.relocations e.code.toList = i.bytes := by
  have hf : f ∈ Form.all := (mem_of_withOpcode? hmade.first).1
  obtain ⟨slots, rfl, hslots, hmodes, hfields, hvalid, hname⟩ :=
    exists_written_slots hmade hi (fun a n hn => (hnames a n hn).1) hparts
  have hnamed : ∀ s ∈ slots, s.IsNamedBy value? := by
    intro s hs
    have hs' := hname s hs
    by_cases habsolute : s.mode.isAbsolute = true
    · rw [if_pos habsolute] at hs'
      refine ⟨fun _ => habsolute, fun n hn => ?_⟩
      have hlt := WrittenSlot.field_lt (hvalid s hs)
      have hnumber : (UInt32.ofNat s.field).toNat = s.field :=
        UInt32.toNat_ofNat_of_lt' (Nat.lt_trans hlt (by decide))
      rw [(hnames _ n (hs'.symm.trans hn)).2, hnumber]
    · rw [if_neg habsolute] at hs'
      refine ⟨fun hsome => ?_, fun n hn => ?_⟩
      · rw [hs'] at hsome
        cases hsome
      · rw [hs'] at hn
        cases hn
  -- names are long enough to leave every long slot long
  obtain ⟨g, short, hresolve, hg, hshort⟩ := resolve_written hf hmodes hvalid
  have hsame : f.modes.map (Mode.shortened · short) = f.modes := by
    rw [← hmodes, List.map_map]
    refine List.map_congr_left fun s hs =>
      shortened_eq_of_long (fun hsome hsmall => ?_) (hshort s hs)
    have hmem : (s.mode, s.field) ∈ i.slots := hslots ▸ List.mem_map_of_mem hs
    rw [hname s hs, if_pos (Mode.isAbsolute_of_short? hsome)]
    exact hlong _ hmem hsome hsmall
  obtain ⟨e, he, hlayout, hnotes⟩ := encode_written hg hmodes hvalid (by rintro rfl; exact hshort)
  refine ⟨operandsOf slots, g, e, readOperands_written hvalid, hresolve, he, hnotes,
    fun base offset => ⟨?_, ?_⟩⟩
  · rw [hlayout.relocations]
    exact fun r hr => isSome_number?_named hg hmodes hvalid hsame hnamed hr offset
  · rw [patch_named hg hmodes hvalid hsame hnamed hlayout, bytes_of_written hmade hmodes hfields]

end Stm8
