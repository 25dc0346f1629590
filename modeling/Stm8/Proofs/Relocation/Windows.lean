import Stm8.Relocation.Window
import Stm8.Proofs.Assembler.Pending
import Stm8.Proofs.Relocation.Exactness

/-!
# Carrying out requests through windows

A reader of object files stores the number of a request through a window, which may begin
in front of the field. The mask lets the bytes in front of the field through and takes the
others from the number (`toNat_masked`), so the store is the same as writing the field:

> `store_eq_write`: if the field is the last part of the window, the window stores what the
> request writes.
> `store_window`: so it does for every request of an instruction or of a cell. None of them
> is for a three-byte field at the very start of the code, for which there is no room in
> front.
-/

namespace Stm8

namespace Relocation

/-! ## Masks -/

/-- Bits that are kept and bits that are taken do not overlap. -/
theorem toNat_masked (x y mask : UInt32) :
    ((x &&& ~~~mask) ||| (y &&& mask)).toNat = (x &&& ~~~mask).toNat + (y &&& mask).toNat := by
  have hapart : (x.toBitVec &&& ~~~mask.toBitVec) &&& (y.toBitVec &&& mask.toBitVec) = 0 := by
    ext i
    simp only [BitVec.getElem_and, BitVec.getElem_not]
    cases mask.toBitVec[i] <;> simp
  have hsum := BitVec.toNat_add_of_and_eq_zero hapart
  rw [BitVec.add_eq_or_of_and_eq_zero _ _ hapart] at hsum
  exact hsum

theorem masked_self (x mask : UInt32) : (x &&& ~~~mask) ||| (x &&& mask) = x := by
  apply UInt32.toBitVec_inj.mp
  ext i
  simp only [UInt32.toBitVec_or, UInt32.toBitVec_and, UInt32.toBitVec_not, BitVec.getElem_or,
    BitVec.getElem_and, BitVec.getElem_not]
  cases mask.toBitVec[i] <;> simp

section

variable {mask : UInt32} {width : Nat} (hmask : mask.toNat = 256 ^ width - 1)

include hmask

/-- Under the mask of the low bytes there is the remainder. -/
theorem toNat_and_mask (x : UInt32) : (x &&& mask).toNat = x.toNat % 256 ^ width := by
  have hpow : 256 ^ width = 2 ^ (8 * width) := by rw [Nat.pow_mul]
  rw [UInt32.toNat_and, hmask, hpow, Nat.and_two_pow_sub_one_eq_mod]

/-- The low bytes are taken from `y`. -/
theorem toNat_masked_low (x y : UInt32) :
    ((x &&& ~~~mask) ||| (y &&& mask)).toNat + x.toNat % 256 ^ width =
      x.toNat + y.toNat % 256 ^ width := by
  have hkept := toNat_masked x x mask
  rw [masked_self, toNat_and_mask hmask] at hkept
  rw [toNat_masked, toNat_and_mask hmask]
  omega

end

/-! ## Stores -/

/-- The low bytes of a number in a word. -/
theorem toNat_ofInt_emod {width : Nat} (hwidth : width ≤ 4) (v : Int) :
    (((UInt32.ofInt v).toNat % 256 ^ width : Nat) : Int) = v % 256 ^ width := by
  have hdvd : 256 ^ width ∣ 2 ^ 32 := Nat.pow_dvd_pow 256 hwidth
  have hword : ((UInt32.ofInt v).toNat : Int) = v % 2 ^ 32 := by
    rw [UInt32.ofInt, UInt32.toNat_ofNat']
    omega
  rw [Int.natCast_mod, hword]
  exact Int.emod_emod_of_dvd v (Int.natCast_dvd_natCast.mpr hdvd)

/-- Behind bytes that are kept, the window stores the low bytes of the number. -/
theorem Window.bigEndian_masked {mask : UInt32} {width : Nat}
    (hmask : mask.toNat = 256 ^ width - 1) {kept field : List UInt8}
    (hfield : field.length = width) (hsize : kept.length + width ≤ 4) (v : Int) :
    bigEndian (kept.length + width)
        (((UInt32.ofNat (readBigEndian (kept ++ field)) &&& ~~~mask) |||
          (UInt32.ofInt v &&& mask)).toNat) =
      kept ++ bigEndian width v := by
  have hread : (UInt32.ofNat (readBigEndian (kept ++ field))).toNat =
      readBigEndian kept * 256 ^ width + readBigEndian field := by
    have hlt : readBigEndian (kept ++ field) < 256 ^ (kept.length + width) :=
      readBigEndian_lt (by rw [List.length_append, hfield])
    have hword : 256 ^ (kept.length + width) ≤ 2 ^ 32 := Nat.pow_le_pow_right (by decide) hsize
    rw [UInt32.toNat_ofNat_of_lt' (Nat.lt_of_lt_of_le hlt hword), readBigEndian_append kept hfield]
  -- the number in the window is that of the bytes on the right
  have hnumber : (((UInt32.ofNat (readBigEndian (kept ++ field)) &&& ~~~mask) |||
      (UInt32.ofInt v &&& mask)).toNat : Int) = readBigEndian (kept ++ bigEndian width v) := by
    have hlow := toNat_masked_low hmask (UInt32.ofNat (readBigEndian (kept ++ field)))
      (UInt32.ofInt v)
    have hv := toNat_ofInt_emod (Nat.le_trans (Nat.le_add_left width kept.length) hsize) v
    have hwritten := readBigEndian_bigEndian width v
    rw [hread, Nat.mul_add_mod_of_lt (readBigEndian_lt hfield)] at hlow
    rw [readBigEndian_append kept (length_bigEndian width v)]
    omega
  rw [hnumber, bigEndian_readBigEndian (by rw [List.length_append, length_bigEndian])]

variable {r : Relocation}

/-- A window is as large as its field, or one byte larger. -/
theorem window_cases (hkind : r.kind ≠ .bitNumber) :
    r.window.mask.toNat = 256 ^ r.kind.size - 1 ∧ r.window.size ≤ 4 ∧
      ((r.window.size = r.kind.size ∧ r.window.offset = r.offset) ∨
        (r.kind = .abs24 ∧ r.window.size = 1 + r.kind.size ∧ r.window.offset = r.offset - 1)) := by
  unfold window
  cases hk : r.kind with
  | bitNumber => exact absurd hk hkind
  | abs24 => exact ⟨rfl, Nat.le_refl _, .inr ⟨rfl, rfl, rfl⟩⟩
  | _ => exact ⟨rfl, Nat.le_of_ble_eq_true rfl, .inl ⟨rfl, rfl⟩⟩

/-- The window of a field that is the last part of it stores what the request writes. -/
theorem store_eq_write (hkind : r.kind ≠ .bitNumber) {front : Nat}
    (hoffset : r.offset = r.window.offset + front) (hsize : r.window.size = front + r.kind.size)
    {code : List UInt8} (h : r.FitsIn code.length) (v : Int) :
    r.window.store code v = r.write code v := by
  obtain ⟨hmask, hfour, -⟩ := window_cases hkind
  unfold FitsIn at h
  -- what stands in the window in front of the field, and the field
  have hkept : ((code.drop r.window.offset).take front).length = front := by
    rw [List.length_take_of_le]
    rw [List.length_drop]
    omega
  have hfield : (r.field code).length = r.kind.size := by
    unfold field
    rw [List.length_take_of_le]
    rw [List.length_drop]
    omega
  have hwindow : (code.drop r.window.offset).take r.window.size =
      (code.drop r.window.offset).take front ++ r.field code := by
    rw [hsize, List.take_add, List.drop_drop, ← hoffset]
    rfl
  have hfront : code.take r.offset =
      code.take r.window.offset ++ (code.drop r.window.offset).take front := by
    rw [hoffset, List.take_add]
  have hnumber := Window.bigEndian_masked hmask hfield (by rw [hkept, ← hsize]; exact hfour) v
  rw [← hwindow, hkept, ← hsize] at hnumber
  rw [write_of_ne_bitNumber hkind, hfront, hoffset, Nat.add_assoc, ← hsize, List.append_assoc
    (code.take _), ← hnumber]
  rfl

/-! ## Requests that are made -/

/-- Whether an instruction or a cell makes the request, perhaps behind other code. -/
inductive IsMade : Relocation → Prop where
  | instruction {f : Form} {ops : List Operand} {e : Encoding} {r : Relocation} :
      f.encode ops = .ok e → r ∈ e.relocations → IsMade r
  | cell {c : Cell} {v : Value} {span : Span} {r : Relocation} :
      r ∈ (Assembler.fill {} c v span).relocations → IsMade r
  | behind {r : Relocation} (n : Nat) : IsMade r → IsMade (r.shift n)

/-- Three-byte fields stand behind an opcode. -/
theorem IsMade.offset_pos (h : IsMade r) (hkind : r.kind = .abs24) : 0 < r.offset := by
  induction h with
  | @instruction f ops e r he hr =>
    rw [(Form.hasLayout_of_encode he).2.relocations] at hr
    have hopcode := f.opcodeWidth_pos
    rcases offset_of_mem_requestsFrom hr with ⟨-, hbit, -⟩ | hfield
    · rw [hkind] at hbit
      cases hbit
    · omega
  | @cell c v span r hr =>
    -- cells have one or two bytes
    rw [Assembler.fill_eq] at hr
    cases v with
    | const v => cases hr
    | symbol s =>
      obtain rfl := List.mem_singleton.mp hr
      cases c <;> cases hkind
  | @behind r n _ ih => exact Nat.lt_of_lt_of_le (ih hkind) (Nat.le_add_left ..)

/-- Every request of a program is made by an instruction or a cell. -/
theorem isPreserved_isMade :
    Assembler.IsPreserved fun a => ∀ r ∈ a.relocations, r.IsMade where
  setBase := fun ha _ => ha
  defineExternal := fun ha _ _ => ha
  enableListing := fun ha => ha
  defineLabel := by
    intro a ha name span
    unfold Assembler.defineLabel
    split <;> exact ha
  data := fun ha _ => ha
  fill := by
    intro a ha c v span
    rw [Assembler.fill_eq]
    refine List.forall_mem_append.mpr ⟨ha, List.forall_mem_map.mpr fun r hr => ?_⟩
    refine .behind _ (@IsMade.cell c v span _ ?_)
    rw [Assembler.fill_eq]
    exact List.mem_append_right _ (List.mem_map.mpr ⟨r, hr, shift_zero r⟩)
  place := by
    intro a f ops e ha hf he
    exact List.forall_mem_append.mpr
      ⟨ha, List.forall_mem_map.mpr fun r hr => .behind _ (.instruction he hr)⟩
  note := by
    intro a ha offset text
    unfold Assembler.note
    split <;> exact ha
  emitLine := fun ha => ha

/-- **A window stores what the request writes.** The requests of programs are made by
instructions and cells. If such a request, wherever its code stands, can be carried out and
is not for a bit number, its window lies inside the code, and storing the number of the
request through it gives the same code. -/
theorem store_window :
    (∀ a : Assembler, a.Reachable → ∀ r ∈ a.relocations, r.IsMade) ∧
      ∀ r : Relocation, r.IsMade → r.kind ≠ .bitNumber →
        ∀ (code after : List UInt8) (address : UInt32) (target : Int),
          r.apply code address target = (after, none) →
            r.window.offset + r.window.size ≤ code.length ∧
              r.window.store code (r.value address target) = after := by
  refine ⟨fun a ha => isPreserved_isMade.of_reachable (List.forall_mem_nil _) ha,
    fun r hmade hkind code after address target happly => ?_⟩
  have hdone : (r.apply code address target).2 = none := congrArg Prod.snd happly
  have hafter : r.write code (r.value address target) = after :=
    (eq_write_of_apply hdone).symm.trans (congrArg Prod.fst happly)
  obtain ⟨hinside, -, -⟩ := apply_eq_none_iff.mp hdone
  have hfits : r.offset + r.kind.size ≤ code.length := hinside
  obtain ⟨-, -, ⟨hsize, hoffset⟩ | ⟨hlong, hsize, hoffset⟩⟩ := window_cases hkind
  · refine ⟨by omega, ?_⟩
    rw [← hafter]
    exact @store_eq_write r hkind 0 (by omega) (by omega) code hinside _
  · have hpos := hmade.offset_pos hlong
    refine ⟨by omega, ?_⟩
    rw [← hafter]
    exact @store_eq_write r hkind 1 (by omega) hsize code hinside _

/-- A far jump behind another instruction. The window begins in that instruction, which stays
as it is. -/
theorem store_window_jpf :
    let r : Relocation := ⟨2, .abs24, "far", 1, .nowhere⟩
    r.IsMade ∧
      r.apply [0x9D, 0xAC, 0xAA, 0xAA, 0xAA] 0x8000 0x12344 =
        ([0x9D, 0xAC, 0x01, 0x23, 0x45], none) ∧
      r.window = ⟨1, 4, 0xFFFFFF⟩ ∧
      r.window.store [0x9D, 0xAC, 0xAA, 0xAA, 0xAA] 0x12345 = [0x9D, 0xAC, 0x01, 0x23, 0x45] := by
  intro r
  have he : (⟨"jpf", [.extMem], 0xAC⟩ : Form).encode
      [.withValue .directMemory (.symbol { name := "far", addend := 1 })] =
        .ok ⟨⟨[0xAC, 0xAA, 0xAA, 0xAA], by decide⟩, [⟨1, .abs24, "far", 1, .nowhere⟩], []⟩ :=
    rfl
  have hmade : r.IsMade := .behind 1 (.instruction he List.mem_cons_self)
  have happly : r.apply [0x9D, 0xAC, 0xAA, 0xAA, 0xAA] 0x8000 0x12344 =
      ([0x9D, 0xAC, 0x01, 0x23, 0x45], none) := by
    decide +kernel
  have hvalue : r.value 0x8000 0x12344 = 0x12345 := by decide +kernel
  obtain ⟨-, hall⟩ := store_window
  obtain ⟨-, hstore⟩ := hall r hmade (by decide) _ _ _ _ happly
  rw [hvalue] at hstore
  exact ⟨hmade, happly, rfl, hstore⟩

end Relocation

end Stm8
