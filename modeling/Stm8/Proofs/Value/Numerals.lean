import Stm8.Proofs.Text.Radix
import Stm8.Proofs.Value.Spelling

/-!
# Names that are numbers

A name may begin with an underscore, and underscores count for nothing in a number. So there
are texts that are both, such as `_1`. They are read as numbers:

> `parse?_name_iff`: a name is a number exactly if it consists of an underscore, decimal
> digits and more underscores.
> `Value.parse?_of_numeral`, `Value.parse?_of_name`: every other name stands for its symbol.
-/

namespace Stm8

open Stm8.Text

/-- Whether a name is the number `n` at the same time. -/
structure IsNumeral (cs : List Char) (n : Nat) : Prop where
  /-- It begins with an underscore. -/
  first : cs.head? = some '_'
  /-- All characters are underscores and digits. -/
  only : ∀ c ∈ cs, c = '_' ∨ c.isDigit = true
  /-- There is a digit. -/
  digit : ∃ c ∈ cs, c.isDigit = true
  /-- The digits are those of the number. -/
  value : positional 10 ((cs.filter (· != '_')).map fun c => c.toNat - 48) = n
  /-- The number is a quantity. -/
  small : (n : Int) ≤ Quantity.greatest

/-! ## Decimal digits -/

namespace Text

theorem digit?_ten {c : Char} {d : Nat} :
    digit? 10 c = some d ↔ c.isDigit = true ∧ d = c.toNat - 48 := by
  rw [digit?_eq_some_iff (by decide), isDigit_iff_toNat (by decide), isDigit_iff]
  omega

/-- What it means that a run of decimal digits has a value. -/
theorem readDigits?_ten {cs : List Char} {n : Nat} :
    readDigits? 10 cs = some n ↔
      cs ≠ [] ∧ (∀ c ∈ cs, c.isDigit = true) ∧
        positional 10 (cs.map fun c => c.toNat - 48) = n := by
  have hmap : ∀ {cs : List Char} {ds : List Nat}, cs.mapM (digit? 10) = some ds ↔
      (∀ c ∈ cs, c.isDigit = true) ∧ ds = cs.map fun c => c.toNat - 48 := by
    intro cs
    induction cs with
    | nil => simp
    | cons c cs ih =>
      intro ds
      rw [List.mapM_cons, List.forall_mem_cons, List.map_cons]
      constructor
      · intro h
        obtain ⟨d, hd, h⟩ := Option.bind_eq_some_iff.mp h
        obtain ⟨rest, hrest, h⟩ := Option.bind_eq_some_iff.mp h
        obtain ⟨hdigit, rfl⟩ := digit?_ten.mp hd
        obtain ⟨hdigits, rfl⟩ := ih.mp hrest
        exact ⟨⟨hdigit, hdigits⟩, (Option.some.inj h).symm⟩
      · rintro ⟨⟨hdigit, hdigits⟩, rfl⟩
        rw [digit?_ten.mpr ⟨hdigit, rfl⟩, ih.mpr ⟨hdigits, rfl⟩]
        rfl
  unfold readDigits?
  cases cs with
  | nil => simp
  | cons c cs =>
    rw [List.isEmpty_cons, if_neg Bool.false_ne_true, Option.map_eq_some_iff]
    constructor
    · rintro ⟨ds, hds, rfl⟩
      obtain ⟨hdigits, rfl⟩ := hmap.mp hds
      exact ⟨List.cons_ne_nil _ _, hdigits, rfl⟩
    · rintro ⟨-, hdigits, rfl⟩
      exact ⟨_, hmap.mpr ⟨hdigits, rfl⟩, rfl⟩

end Text

/-! ## Names -/

/-- A name does not begin like a number in another radix. -/
theorem Number.radixMark_of_name {cs : List Char} (h : isSymbolName cs = true) :
    radixMark cs = (10, cs) := by
  unfold radixMark
  split
  case h_7 => rfl
  all_goals
    rw [isSymbolName, Bool.and_eq_true] at h
    exact absurd h.1 (by decide)

/-- The first character of a name is a digit of no number unless it is an underscore. -/
theorem head?_of_isSymbolName {cs : List Char} (h : isSymbolName cs = true)
    (hdigits : ∀ c ∈ cs, c = '_' ∨ c.isDigit = true) : cs.head? = some '_' := by
  cases cs with
  | nil => cases h
  | cons c cs =>
    rw [isSymbolName, Bool.and_eq_true, Bool.or_eq_true, Bool.or_eq_true, beq_iff_eq,
      beq_iff_eq] at h
    rcases hdigits c List.mem_cons_self with rfl | hdigit
    · rfl
    · exfalso
      rw [isDigit_iff] at hdigit
      rcases h.1 with (hletter | rfl) | rfl
      · rw [isAlpha_iff, isUpper_iff, isLower_iff] at hletter
        omega
      · exact absurd hdigit.2 (by decide)
      · exact absurd hdigit.1 (by decide)

/-- **A name is a number exactly if it consists of an underscore, decimal digits and more
underscores**, and if the number is a quantity. -/
theorem Number.parse?_name_iff {cs : List Char} (h : isSymbolName cs = true) {v : Int} :
    parse? cs = some v ↔ ∃ n : Nat, v = n ∧ IsNumeral cs n := by
  have hplain : ∀ c ∈ cs, isBlank c = false ∧ c ≠ '-' := fun c hc =>
    ⟨isBlank_of_isPlain (isPlain_of_isSymbolName h hc).1, (isPlain_of_isSymbolName h hc).2.2⟩
  have hparse : parse? cs = Option.map (fun n : Nat => (n : Int)) (magnitude? cs) := by
    unfold parse?
    rw [trim_eq_self fun c hc => (hplain c hc).1]
    split
    · next rest => exact absurd rfl (hplain '-' List.mem_cons_self).2
    · cases magnitude? cs <;> rfl
  have hmem : ∀ {c}, c ∈ cs.filter (· != '_') ↔ c ∈ cs ∧ c ≠ '_' := by
    intro c
    rw [List.mem_filter, bne_iff_ne]
  rw [hparse, Option.map_eq_some_iff]
  unfold magnitude?
  simp only [radixMark_of_name h, Option.filter_eq_some_iff, decide_eq_true_iff, readDigits?_ten]
  constructor
  · rintro ⟨n, ⟨⟨hne, hdigits, hvalue⟩, hsmall⟩, rfl⟩
    have honly : ∀ c ∈ cs, c = '_' ∨ c.isDigit = true := fun c hc =>
      Decidable.or_iff_not_imp_left.mpr fun hother => hdigits c (hmem.mpr ⟨hc, hother⟩)
    obtain ⟨c, hc⟩ := List.exists_mem_of_ne_nil _ hne
    exact ⟨n, rfl, head?_of_isSymbolName h honly, honly, ⟨c, (hmem.mp hc).1, hdigits c hc⟩,
      hvalue, hsmall⟩
  · rintro ⟨n, rfl, hn⟩
    obtain ⟨c, hc, hdigit⟩ := hn.digit
    refine ⟨n, ⟨⟨?_, fun d hd => ?_, hn.value⟩, hn.small⟩, rfl⟩
    · refine List.ne_nil_of_mem (hmem.mpr ⟨hc, ?_⟩)
      rintro rfl
      cases hdigit
    · obtain ⟨hd, hother⟩ := hmem.mp hd
      exact (hn.only d hd).resolve_left hother

/-- A name that is a number stands for the number. -/
theorem Value.parse?_of_numeral {cs : List Char} (h : isSymbolName cs = true) {n : Nat}
    (hn : IsNumeral cs n) : Value.parse? cs = some (.const n) :=
  parse?_of_number (fun _ hc => (isPlain_of_isSymbolName h hc).1)
    ((Number.parse?_name_iff h).mpr ⟨n, rfl, hn⟩)

/-- Every other name is no number. -/
theorem Number.parse?_eq_none_of_name {cs : List Char} (h : isSymbolName cs = true)
    (hno : ∀ n, ¬ IsNumeral cs n) : parse? cs = none := by
  cases hparse : parse? cs with
  | none => rfl
  | some v =>
    obtain ⟨n, -, hn⟩ := (parse?_name_iff h).mp hparse
    exact absurd hn (hno n)

end Stm8
