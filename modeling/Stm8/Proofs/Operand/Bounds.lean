import Stm8.Operand.Parser
import Stm8.Proofs.Success

/-!
# Quantities in operands

Whatever stands in a source text, its numbers fit 64 bits: the digits of a number and every
partial sum are tested when a value is read. Brackets and endings decide on the category of
an operand and on the mark of its symbol, and leave the value as it is:

> `isBounded_of_parse?`: the number in a value that was read is a quantity.
> `forall_value_of_classify`: what holds of all values that are read, marked or not, holds
> of the values of operands.
-/

namespace Stm8

/-! ## Numbers -/

theorem Number.le_of_magnitude? {cs : List Char} {n : Nat} (h : magnitude? cs = some n) :
    (n : Int) ≤ 0x7FFFFFFFFFFFFFFF := by
  obtain ⟨-, hle⟩ := Option.filter_eq_some_iff.mp h
  exact decide_eq_true_iff.mp hle

/-- A number that was read is a quantity. -/
theorem Number.fits_of_parse? {cs : List Char} {n : Int} (h : parse? cs = some n) :
    Quantity.fits n = true := by
  rw [Quantity.fits_iff]
  unfold parse? at h
  split at h <;>
  · obtain ⟨m, hm, rfl⟩ := Option.map_eq_some_iff.mp h
    obtain ⟨n, hn, hm⟩ := Option.bind_eq_some_iff.mp hm
    have hle := Number.le_of_magnitude? hn
    have hmn : (n : Int) = m := Option.some.inj hm
    omega

namespace Value

/-! ## Values -/

/-- Whether the number in the value is a quantity. -/
def IsBounded : Value → Prop
  | const v => Quantity.fits v = true
  | symbol r => Quantity.fits r.addend = true

theorem IsBounded.markShort {v : Value} (h : v.IsBounded) (short : Bool) :
    (v.markShort short).IsBounded := by
  cases v <;> exact h

/-- Every partial sum is tested. -/
theorem fits_of_add? {sum next : Sum} {term : Term} (h : Quantity.fits sum.addend = true)
    (hnext : sum.add? term = some next) : Quantity.fits next.addend = true := by
  unfold Sum.add? at hnext
  dsimp only at hnext
  split at hnext
  · next n _ =>
    generalize (if term.negative then sum.addend - n else sum.addend + n) = total at hnext
    split at hnext
    · next hfits =>
      injection hnext with hnext
      rw [← hnext]
      exact hfits
    · cases hnext
  · split at hnext
    · injection hnext with hnext
      rw [← hnext]
      exact h
    · cases hnext

theorem fits_of_foldlM {terms : List Term} :
    ∀ {sum last : Sum}, Quantity.fits sum.addend = true →
      terms.foldlM Sum.add? sum = some last → Quantity.fits last.addend = true := by
  induction terms with
  | nil =>
    intro sum last h hlast
    obtain rfl : sum = last := Option.some.inj hlast
    exact h
  | cons term terms ih =>
    intro sum last h hlast
    obtain ⟨next, hnext, hlast⟩ := Option.bind_eq_some_iff.mp hlast
    exact ih (fits_of_add? h hnext) hlast

/-- **The number in a value that was read is a quantity.** -/
theorem isBounded_of_parse? {cs : List Char} {v : Value} (h : parse? cs = some v) :
    v.IsBounded := by
  have hsum : ∀ sum : Sum, Quantity.fits sum.addend = true → sum.value.IsBounded := by
    intro sum hfits
    unfold Sum.value
    cases sum.symbol <;> exact hfits
  unfold parse? at h
  dsimp only at h
  split at h
  · cases h
  · split at h
    · next n hn =>
      injection h with h
      rw [← h]
      exact Number.fits_of_parse? hn
    · obtain ⟨sum, hfold, rfl⟩ := Option.map_eq_some_iff.mp h
      exact hsum sum (fits_of_foldlM (by decide) hfold)

end Value

namespace Operand

/-! ## Operands -/

section

variable {P : Value → Prop} (hread : ∀ cs v, Value.parse? cs = some v → P v)
  (hmark : ∀ v short, P v → P (v.markShort short))

include hread

theorem forall_value_of_valueIn {cs : List Char} {v : Value} (h : valueIn cs = .ok v) : P v := by
  unfold valueIn at h
  cases hparse : Value.parse? cs with
  | none =>
    rw [hparse] at h
    cases h
  | some w =>
    rw [hparse] at h
    injection h with h
    rw [← h]
    exact hread cs w hparse

include hmark

theorem forall_value_of_shortValueIn {cs : List Char} {v : Value} (h : shortValueIn cs = .ok v) :
    P v := by
  obtain ⟨w, hw, rfl⟩ := map_eq_ok.mp h
  exact hmark w _ (forall_value_of_valueIn hread hw)

theorem forall_value_of_pointerIn {cs : List Char} {v : Value} {far : Bool}
    (h : pointerIn cs = .ok (v, far)) : P v := by
  unfold pointerIn at h
  dsimp only at h
  split at h
  · obtain ⟨w, hw, h⟩ := map_eq_ok.mp h
    obtain rfl : w = v := congrArg Prod.fst h
    exact forall_value_of_valueIn hread hw
  · split at h
    · obtain ⟨w, hw, h⟩ := map_eq_ok.mp h
      obtain rfl : w = v := congrArg Prod.fst h
      exact forall_value_of_valueIn hread hw
    · obtain ⟨w, hw, h⟩ := map_eq_ok.mp h
      obtain rfl : w = v := congrArg Prod.fst h
      exact forall_value_of_shortValueIn hread hmark hw

variable {k : Kind} {v : Value}

theorem forall_value_of_classifyPointer {text : List Char}
    (h : classifyPointer text = .ok (k, some v)) : P v := by
  obtain ⟨inner, -, h⟩ := bind_eq_ok.mp h
  split at h
  · cases h
  · obtain ⟨⟨w, far⟩, hw, h⟩ := bind_eq_ok.mp h
    cases h
    exact forall_value_of_pointerIn hread hmark hw

theorem forall_value_of_classifyIndexed {base : List Char} {index : Register}
    (h : classifyIndexed base index = .ok (k, some v)) : P v := by
  unfold classifyIndexed at h
  split at h
  · obtain ⟨inner, -, h⟩ := bind_eq_ok.mp h
    obtain ⟨⟨w, far⟩, hw, h⟩ := bind_eq_ok.mp h
    dsimp only at h
    split at h
    · cases h
    · cases h
      exact forall_value_of_pointerIn hread hmark hw
  · split at h
    · cases h
    · obtain ⟨w, hw, h⟩ := bind_eq_ok.mp h
      cases h
      exact forall_value_of_shortValueIn hread hmark hw

theorem forall_value_of_classifyParenthesized {text : List Char}
    (h : classifyParenthesized text = .ok (k, some v)) : P v := by
  unfold classifyParenthesized at h
  split at h
  · cases h
  · split at h
    · split at h <;> cases h
    · split at h
      · cases h
      · exact forall_value_of_classifyIndexed hread hmark h

/-- What holds of all values that are read, marked or not, holds of those of operands. -/
theorem forall_value_of_classify {cs : List Char} (h : classify cs = .ok (k, some v)) : P v := by
  unfold classify at h
  split at h
  · cases h
  · obtain ⟨w, hw, h⟩ := map_eq_ok.mp h
    cases h
    exact forall_value_of_valueIn hread hw
  · exact forall_value_of_classifyPointer hread hmark h
  · exact forall_value_of_classifyParenthesized hread hmark h
  · unfold classifyPlain at h
    split at h
    · cases h
    · obtain ⟨w, hw, h⟩ := map_eq_ok.mp h
      cases h
      exact forall_value_of_valueIn hread hw

end

/-- **The number in an operand that was read is a quantity.** -/
theorem isBounded_of_parse {cs : List Char} {span : Span} {op : Operand}
    (h : parse cs span = .ok op) {v : Value} (hv : op.value = some v) : v.IsBounded := by
  unfold parse at h
  cases hclassify : classify cs with
  | error cause =>
    rw [hclassify] at h
    cases h
  | ok found =>
    rw [hclassify] at h
    injection h with h
    rw [← h] at hv
    obtain ⟨k, value⟩ := found
    obtain rfl : value = some v := hv
    exact forall_value_of_classify (fun _ _ => Value.isBounded_of_parse?)
      (fun _ short hw => hw.markShort short) hclassify

end Operand

end Stm8
