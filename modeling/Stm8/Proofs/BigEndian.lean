import Mathlib.Algebra.Ring.Int.Defs
import Mathlib.Algebra.Ring.Nat
import Stm8.BigEndian

/-!
# Fields and the numbers in them

Writing a number and reading a field undo each other, as far as the field is wide
enough:

> `readBigEndian_bigEndian`: what is read is the number that was written, modulo the
> size of the field.
> `bigEndian_readBigEndian`: what is written is the field that the number was read from.

A field of one byte may hold a displacement instead. `readSigned_field` and
`bigEndian_readSigned` say the same of it.
-/

namespace Stm8

/-! ## Fields -/

/-- The remainder modulo a product, taken one factor at a time. -/
theorem emod_mul_eq (v a b : Int) (ha : 0 < a) (hb : 0 < b) :
    v % (b * a) = v / a % b * a + v % a := by
  have hv := Int.mul_ediv_add_emod v a
  have hq := Int.mul_ediv_add_emod (v / a) b
  have r0 := Int.emod_nonneg v (Int.ne_of_gt ha)
  have r1 := Int.emod_lt_of_pos v ha
  have s0 := Int.emod_nonneg (v / a) (Int.ne_of_gt hb)
  have s1 := Int.emod_lt_of_pos (v / a) hb
  have split : v = v / a % b * a + v % a + b * a * (v / a / b) := by
    calc v = a * (v / a) + v % a := hv.symm
      _ = a * (b * (v / a / b) + v / a % b) + v % a := by rw [hq]
      _ = _ := by
        rw [Int.mul_add, ← Int.mul_assoc, Int.mul_comm a b, Int.mul_comm a (v / a % b)]
        omega
  have low : 0 ≤ v / a % b * a + v % a :=
    Int.add_nonneg (Int.mul_nonneg s0 (Int.le_of_lt ha)) r0
  have high : v / a % b * a + v % a < b * a := by
    have h := Int.mul_le_mul_of_nonneg_right (Int.add_one_le_of_lt s1) (Int.le_of_lt ha)
    rw [Int.add_mul, Int.one_mul] at h
    omega
  conv => lhs; rw [split]
  rw [Int.add_mul_emod_self_left, Int.emod_eq_of_lt low high]

/-- A field of `width` bytes holds the number modulo `256 ^ width`. -/
theorem readBigEndian_bigEndian (width : Nat) (v : Int) :
    (readBigEndian (bigEndian width v) : Int) = v % 256 ^ width := by
  induction width generalizing v with
  | zero =>
    show (0 : Int) = v % 1
    omega
  | succ width ih =>
    rw [bigEndian, readBigEndian_concat, Int.natCast_add, Int.natCast_mul, ih, toNat_ofInt,
      Int.pow_succ, emod_mul_eq v 256 (256 ^ width) (by decide) (Int.pow_pos (by decide))]
    rfl

/-- A field is the bytes before its last one, and the last one. -/
theorem exists_concat {bytes : List UInt8} {width : Nat} (h : bytes.length = width + 1) :
    ∃ front b, bytes = front ++ [b] ∧ front.length = width := by
  rcases List.eq_nil_or_concat bytes with hnil | ⟨front, b, hbytes⟩
  · rw [hnil] at h
    cases h
  · rw [List.concat_eq_append] at hbytes
    refine ⟨front, b, hbytes, ?_⟩
    rw [hbytes, List.length_append] at h
    exact Nat.succ.inj h

/-- A field holds a number below its size. -/
theorem readBigEndian_lt {width : Nat} :
    ∀ {bytes : List UInt8}, bytes.length = width → readBigEndian bytes < 256 ^ width := by
  induction width with
  | zero =>
    intro bytes h
    rw [List.length_eq_zero_iff.mp h]
    decide
  | succ width ih =>
    intro bytes h
    obtain ⟨front, b, rfl, hfront⟩ := exists_concat h
    have hb := b.toNat_lt
    have hlt := ih hfront
    rw [readBigEndian_concat, Nat.pow_succ]
    omega

/-- Bytes in front count by the size of the field behind them. -/
theorem readBigEndian_append (front : List UInt8) {width : Nat} :
    ∀ {field : List UInt8}, field.length = width →
      readBigEndian (front ++ field) = readBigEndian front * 256 ^ width + readBigEndian field := by
  induction width with
  | zero =>
    intro field h
    rw [List.length_eq_zero_iff.mp h, List.append_nil, Nat.pow_zero, Nat.mul_one]
    rfl
  | succ width ih =>
    intro field h
    obtain ⟨high, b, rfl, hhigh⟩ := exists_concat h
    rw [← List.append_assoc, readBigEndian_concat, ih hhigh, readBigEndian_concat, Nat.pow_succ,
      ← Nat.mul_assoc, Nat.add_mul, Nat.add_assoc]

/-- Bytes are the field of the number that they hold. -/
theorem bigEndian_readBigEndian {width : Nat} :
    ∀ {bytes : List UInt8}, bytes.length = width →
      bigEndian width (readBigEndian bytes) = bytes := by
  induction width with
  | zero =>
    intro bytes h
    rw [List.length_eq_zero_iff.mp h]
    rfl
  | succ width ih =>
    intro bytes h
    obtain ⟨front, b, rfl, hfront⟩ := exists_concat h
    have hb := b.toNat_lt
    have hhigh : ((readBigEndian (front ++ [b]) : Nat) : Int) / 256 = readBigEndian front := by
      rw [readBigEndian_concat]
      omega
    have hlow : UInt8.ofInt (readBigEndian (front ++ [b])) = b := by
      have hofInt := toNat_ofInt (readBigEndian (front ++ [b]))
      rw [readBigEndian_concat] at hofInt ⊢
      apply UInt8.toNat_inj.mp
      omega
    rw [bigEndian, hhigh, ih hfront, hlow]

/-! ## Fields of one byte -/

theorem ofInt_readSigned (b : UInt8) : UInt8.ofInt (readSigned b) = b := by
  have hb := b.toNat_lt
  have hofInt := toNat_ofInt (readSigned b)
  apply UInt8.toNat_inj.mp
  unfold readSigned at hofInt ⊢
  by_cases hlow : b < 0x80
  · rw [if_pos hlow] at hofInt ⊢
    omega
  · rw [if_neg hlow] at hofInt ⊢
    omega

theorem readSigned_bounds (b : UInt8) : -128 ≤ readSigned b ∧ readSigned b ≤ 127 := by
  have hb := b.toNat_lt
  unfold readSigned
  by_cases hlow : b < 0x80
  · have hlt : b.toNat < 128 := UInt8.lt_iff_toNat_lt.mp hlow
    rw [if_pos hlow]
    omega
  · have hge : ¬ b.toNat < 128 := fun hlt => hlow (UInt8.lt_iff_toNat_lt.mpr hlt)
    rw [if_neg hlow]
    omega

/-- The displacement in a byte is stored as that byte. -/
theorem bigEndian_readSigned (n : Nat) :
    bigEndian 1 (readSigned (UInt8.ofNat n)) = bigEndian 1 n := by
  have hofInt := toNat_ofInt n
  have hofNat : (UInt8.ofNat n).toNat = n % 256 := UInt8.toNat_ofNat'
  have hbyte : UInt8.ofInt n = UInt8.ofNat n := by
    apply UInt8.toNat_inj.mp
    omega
  show [UInt8.ofInt (readSigned (UInt8.ofNat n))] = [UInt8.ofInt n]
  rw [ofInt_readSigned, hbyte]

/-- The displacement that is stored is read. -/
theorem readSigned_ofInt {v : Int} (hleast : -128 ≤ v) (hgreatest : v ≤ 127) :
    readSigned (UInt8.ofInt v) = v := by
  have hnat := toNat_ofInt v
  unfold readSigned
  by_cases h : UInt8.ofInt v < 0x80
  · have hlt : (UInt8.ofInt v).toNat < 128 := h
    rw [if_pos h]
    omega
  · have hge : ¬ (UInt8.ofInt v).toNat < 128 := h
    rw [if_neg h]
    omega

/-- The displacement that is written is read. -/
theorem readSigned_field {v : Int} (hleast : -128 ≤ v) (hgreatest : v ≤ 127) :
    readSigned (UInt8.ofNat (readBigEndian (bigEndian 1 v))) = v := by
  have hbyte : UInt8.ofNat (readBigEndian (bigEndian 1 v)) = UInt8.ofInt v := by
    show UInt8.ofNat (0 * 256 + (UInt8.ofInt v).toNat) = _
    rw [Nat.zero_mul, Nat.zero_add, UInt8.ofNat_toNat]
  rw [hbyte, readSigned_ofInt hleast hgreatest]

end Stm8
