import Stm8.Proofs.BigEndian
import Stm8.Proofs.Relocation.Pending

/-!
# What carrying out a request does to the code

A request is carried out as a whole or not at all. Its field is the only part of the code
that it may change (`getElem?_write_of_not_covers`), and the number can be read off the
field afterwards (`isWritten_write`).

> `apply_exact`: a request is carried out exactly if its field lies inside the code and
> its number is in the range of its kind. The code then holds the number and is the same
> everywhere else. A field outside of the code is reported before a number out of range,
> and with either report the code is the same as before.
-/

namespace Stm8

namespace Relocation

/-! ## Single bytes -/

/-- Whether the byte behind `n` others stands in the field of the request. -/
def Covers (r : Relocation) (n : Nat) : Prop :=
  r.offset ≤ n ∧ n < r.offset + r.kind.size

section

variable {r : Relocation} {code : List UInt8}

/-- A byte that is not covered stays as it is. -/
theorem getElem?_write_of_not_covers (h : r.FitsIn code.length) {n : Nat} (hn : ¬r.Covers n)
    (v : Int) : (r.write code v)[n]? = code[n]? := by
  unfold FitsIn at h
  unfold Covers at hn
  by_cases hkind : r.kind = .bitNumber
  · have hne : r.offset ≠ n := by
      rintro rfl
      rw [hkind] at hn
      exact hn ⟨Nat.le_refl _, Nat.lt_succ_self _⟩
    rw [write_of_bitNumber hkind, List.getElem?_modify_ne _ _ hne]
  · have hlength : (code.take r.offset).length = r.offset := List.length_take_of_le (by omega)
    rw [write_of_ne_bitNumber hkind, List.append_assoc]
    by_cases hfront : n < r.offset
    · rw [List.getElem?_append_left (by omega), List.getElem?_take_of_lt hfront]
    · rw [List.getElem?_append_right (by omega), hlength, List.getElem?_append_right
        (by rw [length_bigEndian]; omega), length_bigEndian, List.getElem?_drop]
      congr 1
      omega

/-- The field of a number holds what was written last. -/
theorem field_write_self (h : r.FitsIn code.length) (hkind : r.kind ≠ .bitNumber) (v : Int) :
    r.field (r.write code v) = bigEndian r.kind.size v := by
  unfold FitsIn at h
  have hlength : (code.take r.offset).length = r.offset := List.length_take_of_le (by omega)
  have hdrop : (code.take r.offset ++ (bigEndian r.kind.size v ++
      code.drop (r.offset + r.kind.size))).drop r.offset =
        bigEndian r.kind.size v ++ code.drop (r.offset + r.kind.size) := by
    rw [List.drop_append, hlength, Nat.sub_self, List.drop_zero,
      List.drop_eq_nil_of_le (Nat.le_of_eq hlength), List.nil_append]
  rw [field, write_of_ne_bitNumber hkind, List.append_assoc, hdrop, List.take_append_of_le_length
    (Nat.le_of_eq (length_bigEndian _ v).symm), List.take_of_length_le
    (Nat.le_of_eq (length_bigEndian _ v))]

/-- The byte to which a bit number is added stands alone in its field. -/
theorem field_of_bitNumber (h : r.FitsIn code.length) (hkind : r.kind = .bitNumber) (v : Int) :
    ∃ b, r.field code = [b] ∧ r.field (r.write code v) = [b + 2 * UInt8.ofInt v] := by
  unfold FitsIn at h
  rw [hkind] at h
  replace h : r.offset < code.length := h
  have hlast : r.offset < (code.modify r.offset (· + 2 * UInt8.ofInt v)).length := by
    rw [List.length_modify]
    exact h
  refine ⟨code[r.offset], ?_, ?_⟩
  · rw [field, hkind, List.drop_eq_getElem_cons h]
    rfl
  · rw [field, write_of_bitNumber hkind, hkind, List.drop_eq_getElem_cons hlast,
      List.getElem_modify_eq]
    rfl

end

/-! ## Numbers in fields -/

/-- The kinds that are neither relative nor bit numbers hold all numbers of their size. -/
theorem Kind.range_eq {k : Kind} (hrelative : k ≠ .relative8) (hbit : k ≠ .bitNumber) :
    k.range = (0, 256 ^ k.size - 1) := by
  cases k with
  | relative8 => exact absurd rfl hrelative
  | bitNumber => exact absurd rfl hbit
  | _ => rfl

/-- What the code is like when the number `v` was put into it. -/
structure IsWritten (r : Relocation) (code after : List UInt8) (v : Int) : Prop where
  /-- There are as many bytes as before. -/
  length : after.length = code.length
  /-- The bytes outside of the field are the same. -/
  outside : ∀ n, ¬r.Covers n → after[n]? = code[n]?
  /-- A field holds the number. -/
  absolute : r.kind ≠ .relative8 → r.kind ≠ .bitNumber →
    (readBigEndian (r.field after) : Int) = v
  /-- A displacement is a signed byte. -/
  relative : r.kind = .relative8 → ∃ b, r.field after = [b] ∧ readSigned b = v
  /-- A bit number is added to the byte twice. -/
  bitNumber : r.kind = .bitNumber → ∃ before b, r.field code = [before] ∧
    r.field after = [b] ∧ (b.toNat : Int) = (before.toNat + 2 * v) % 256

/-- A number in range can be read off the code into which it was written. -/
theorem isWritten_write {r : Relocation} {code : List UInt8} (h : r.FitsIn code.length) {v : Int}
    (hleast : r.kind.range.1 ≤ v) (hgreatest : v ≤ r.kind.range.2) :
    r.IsWritten code (r.write code v) v where
  length := length_write h v
  outside := fun _ hn => getElem?_write_of_not_covers h hn v
  absolute := by
    intro hrelative hbit
    rw [Kind.range_eq hrelative hbit] at hleast hgreatest
    rw [field_write_self h hbit, readBigEndian_bigEndian]
    exact Int.emod_eq_of_lt hleast (by omega)
  relative := by
    intro hkind
    have hfield : r.field (r.write code v) = [UInt8.ofInt v] := by
      rw [field_write_self h (by rw [hkind]; exact Kind.noConfusion), hkind]
      rfl
    rw [hkind] at hleast hgreatest
    exact ⟨_, hfield, readSigned_ofInt hleast hgreatest⟩
  bitNumber := by
    intro hkind
    obtain ⟨before, hbefore, hafter⟩ := field_of_bitNumber h hkind v
    refine ⟨before, _, hbefore, hafter, ?_⟩
    have hv := toNat_ofInt v
    rw [UInt8.toNat_add, UInt8.toNat_mul]
    show (((before.toNat + 2 * (UInt8.ofInt v).toNat % 2 ^ 8) % 2 ^ 8 : Nat) : Int) = _
    omega

/-! ## Numbers of requests -/

section

variable (r : Relocation) (address : UInt32) (target : Int)

/-- The sum of a request: the value of the symbol with the addend, counted from the end
of the field if the request is for a displacement. -/
theorem sum_eq :
    r.sum address target =
      target + r.addend - (if r.kind = .relative8 then address.toNat + r.offset + 1 else 0) := by
  unfold sum
  cases hkind : r.kind with
  | relative8 => rfl
  | _ => exact (Int.sub_zero _).symm

/-- Counted from the start of the field as object files do it, the distance comes out as
the same number of 64 bits. -/
theorem value_eq_elf (hkind : r.kind = .relative8) :
    r.value address target =
      Quantity.wrap (target + r.elfAddend - (address.toNat + r.offset)) := by
  have hrelative : r.kind.isRelative = true := by rw [hkind]; rfl
  have hsame := Quantity.wrap_wrap_sub (r.addend - 1) (address.toNat + r.offset - target)
  have hswap : ∀ v : Int, v - (address.toNat + r.offset - target) =
      target + v - (address.toNat + r.offset) := by
    intro v
    omega
  rw [hswap, hswap] at hsame
  unfold elfAddend
  rw [if_pos hrelative, hsame, value_eq_wrap, sum, if_pos hrelative]
  refine congrArg Quantity.wrap ?_
  omega

/-- And as the same integer, if neither way of counting overflows. -/
theorem value_eq_elf_of_fits (hkind : r.kind = .relative8)
    (hsum : r.overflows address target = false) (haddend : Quantity.fits (r.addend - 1) = true) :
    r.value address target = target + r.elfAddend - (address.toNat + r.offset) := by
  have hrelative : r.kind.isRelative = true := by rw [hkind]; rfl
  rw [value_of_not_overflows hsum]
  unfold sum elfAddend
  rw [if_pos hrelative, if_pos hrelative, Quantity.wrap_of_fits haddend]
  omega

theorem rangeProblem_eq (v : Int) :
    r.rangeProblem v =
      if r.kind = .relative8 then .branchOutOfRange r.symbol v 127 r.span
      else .outOfRange v r.kind.range.1 r.kind.range.2 r.span := by
  unfold rangeProblem
  cases hkind : r.kind <;> rfl

end

/-! ## Success and failure -/

section

variable (r : Relocation) (code : List UInt8) (address : UInt32) (target : Int)

/-- The field is checked first, and the number then. Both are checked before anything is
written. -/
theorem apply_outcome :
    (¬r.FitsIn code.length ∧ r.apply code address target =
        (code, some (.noEncoding ("reloc " ++ r.symbol)
          (.fieldOutside r.offset (r.offset + r.kind.size) code.length)))) ∨
      (r.FitsIn code.length ∧
        (r.value address target < r.kind.range.1 ∨ r.kind.range.2 < r.value address target) ∧
        r.apply code address target = (code, some (r.rangeProblem (r.value address target)))) ∨
      (r.FitsIn code.length ∧ r.kind.range.1 ≤ r.value address target ∧
        r.value address target ≤ r.kind.range.2 ∧
        r.apply code address target = (r.write code (r.value address target), none)) := by
  unfold apply FitsIn
  simp only [Bool.or_eq_true, decide_eq_true_eq]
  by_cases hinside : code.length < r.offset + r.kind.size
  · rw [if_pos hinside]
    exact Or.inl ⟨Nat.not_le.mpr hinside, rfl⟩
  · rw [if_neg hinside]
    by_cases hrange : r.value address target < r.kind.range.1 ∨
        r.kind.range.2 < r.value address target
    · rw [if_pos hrange]
      exact Or.inr (Or.inl ⟨Nat.not_lt.mp hinside, hrange, rfl⟩)
    · rw [if_neg hrange]
      exact Or.inr (Or.inr ⟨Nat.not_lt.mp hinside, by omega, by omega, rfl⟩)

variable {r code address target}

theorem apply_eq_none_iff :
    (r.apply code address target).2 = none ↔
      r.FitsIn code.length ∧ r.kind.range.1 ≤ r.value address target ∧
        r.value address target ≤ r.kind.range.2 := by
  rcases r.apply_outcome code address target with
    ⟨hinside, happly⟩ | ⟨-, hrange, happly⟩ | ⟨hinside, hleast, hgreatest, happly⟩
  · rw [happly]
    exact ⟨fun h => absurd h (Option.some_ne_none _), fun h => absurd h.1 hinside⟩
  · rw [happly]
    refine ⟨fun h => absurd h (Option.some_ne_none _), fun h => ?_⟩
    omega
  · rw [happly]
    exact ⟨fun _ => ⟨hinside, hleast, hgreatest⟩, fun _ => rfl⟩

/-- What is written is the number of the request. -/
theorem eq_write_of_apply (h : (r.apply code address target).2 = none) :
    (r.apply code address target).1 = r.write code (r.value address target) := by
  rcases r.apply_outcome code address target with
    ⟨-, happly⟩ | ⟨-, -, happly⟩ | ⟨-, -, -, happly⟩
  · rw [happly] at h
    cases h
  · rw [happly] at h
    cases h
  · rw [happly]

/-- A request that can be carried out has a number to write. -/
theorem number?_of_apply (h : (r.apply code address target).2 = none) :
    r.number? address (fun _ => some target) = some (r.value address target) := by
  obtain ⟨-, hleast, hgreatest⟩ := apply_eq_none_iff.mp h
  refine if_neg ?_
  rw [Bool.or_eq_true, decide_eq_true_iff, decide_eq_true_iff]
  omega

theorem isWritten_of_apply (h : (r.apply code address target).2 = none) :
    r.IsWritten code (r.apply code address target).1 (r.value address target) := by
  obtain ⟨hinside, hleast, hgreatest⟩ := apply_eq_none_iff.mp h
  rw [eq_write_of_apply h]
  exact isWritten_write hinside hleast hgreatest

/-- With a problem the code comes back as it was. -/
theorem eq_of_apply_problem {problem : Problem}
    (h : (r.apply code address target).2 = some problem) :
    (r.apply code address target).1 = code ∧
      ((¬r.FitsIn code.length ∧ problem = .noEncoding ("reloc " ++ r.symbol)
          (.fieldOutside r.offset (r.offset + r.kind.size) code.length)) ∨
        (r.FitsIn code.length ∧ problem = r.rangeProblem (r.value address target))) := by
  rcases r.apply_outcome code address target with
    ⟨hinside, happly⟩ | ⟨hinside, -, happly⟩ | ⟨-, -, -, happly⟩
  · rw [happly] at h ⊢
    exact ⟨rfl, Or.inl ⟨hinside, (Option.some.inj h).symm⟩⟩
  · rw [happly] at h ⊢
    exact ⟨rfl, Or.inr ⟨hinside, (Option.some.inj h).symm⟩⟩
  · rw [happly] at h
    cases h

end

/-- **Patching is exact, local and atomic.** The number of a request is the sum that it
asks for, unless that overflows. The request is carried out exactly if its field lies
inside the code and its number is in the range of its kind. Then the field holds the
number, a bit number being added, and all other bytes are the same; a displacement is the
one that object files count from the start of the field. With a problem the code comes back
as it was. A field outside of the code is reported first, and a number out of range as that
of a branch or of a field. -/
theorem apply_exact (r : Relocation) (code : List UInt8) (address : UInt32) (target : Int) :
    let v := r.value address target
    (r.overflows address target = false → v =
        target + r.addend - (if r.kind = .relative8 then address.toNat + r.offset + 1 else 0)) ∧
      ((r.apply code address target).2 = none ↔
        r.offset + r.kind.size ≤ code.length ∧ r.kind.range.1 ≤ v ∧ v ≤ r.kind.range.2) ∧
      ((r.apply code address target).2 = none →
        r.IsWritten code (r.apply code address target).1 v ∧
          (r.kind = .relative8 →
            v = Quantity.wrap (target + r.elfAddend - (address.toNat + r.offset)) ∧
            (r.overflows address target = false → Quantity.fits (r.addend - 1) = true →
              v = target + r.elfAddend - (address.toNat + r.offset)))) ∧
      ∀ problem, (r.apply code address target).2 = some problem →
        (r.apply code address target).1 = code ∧
        problem =
          if r.offset + r.kind.size ≤ code.length then
            if r.kind = .relative8 then .branchOutOfRange r.symbol v 127 r.span
            else .outOfRange v r.kind.range.1 r.kind.range.2 r.span
          else
            .noEncoding ("reloc " ++ r.symbol)
              (.fieldOutside r.offset (r.offset + r.kind.size) code.length) := by
  intro v
  refine ⟨?_, apply_eq_none_iff, ?_, ?_⟩
  · intro hsum
    rw [← sum_eq]
    exact value_of_not_overflows hsum
  · intro hdone
    refine ⟨isWritten_of_apply hdone, fun hkind => ⟨r.value_eq_elf address target hkind, ?_⟩⟩
    exact r.value_eq_elf_of_fits address target hkind
  · intro problem hproblem
    obtain ⟨hcode, ⟨hinside, hcause⟩ | ⟨hinside, hcause⟩⟩ := eq_of_apply_problem hproblem
    · rw [if_neg (show ¬r.offset + r.kind.size ≤ code.length from hinside)]
      exact ⟨hcode, hcause⟩
    · rw [if_pos (show r.offset + r.kind.size ≤ code.length from hinside), hcause, rangeProblem_eq]
      exact ⟨hcode, rfl⟩

end Relocation

end Stm8
