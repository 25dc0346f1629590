import Stm8.Proofs.Text.Padding
import Stm8.Proofs.Text.Radix

/-!
# The grammar of numbers

What a number looks like: the mark of a radix, digits of that radix with underscores anywhere
among them (`IsMagnitude`), perhaps a minus sign in front, and white space around the number
and behind the sign (`IsNumber`). The digits have their positional value, which must be below
2 ^ 63. The marks exclude one another, and so the first one that fits is the only one:

> `magnitude?_eq_some_iff`: a number without its sign is read exactly if it is one.
> `number_grammar`: a text is read exactly if it is a number. Every integer that is small
> enough is read from each of its spellings.
-/

namespace Stm8.Number

open Stm8.Text

/-! ## The grammar -/

/-- The radices with their marks. -/
def marks : List (Nat × String) :=
  [(10, ""), (16, "0x"), (16, "0X"), (16, "$"), (2, "0b"), (2, "0B"), (2, "%")]

/-- Whether the text is the number without a sign: the mark of a radix and digits behind it, at
least one of them. -/
inductive IsMagnitude : List Char → Nat → Prop where
  | intro {radix : Nat} {mark : String} {cs : List Char} {ds : List Nat} :
      (radix, mark) ∈ marks → IsDigits radix cs ds → ds ≠ [] →
      IsMagnitude (mark.toList ++ cs) (Nat.ofDigits radix ds.reverse)

/-- Whether the text is the number, white space aside. -/
inductive IsNumber : List Char → Int → Prop where
  | plain {cs text : List Char} {n : Nat} :
      IsMagnitude cs n → n < 2 ^ 63 → IsPadded cs text → IsNumber text n
  | minus {gap cs text : List Char} {n : Nat} :
      (∀ c ∈ gap, isBlank c = true) → IsMagnitude cs n → n < 2 ^ 63 →
      IsPadded ('-' :: (gap ++ cs)) text → IsNumber text (-n)

/-! ## Magnitudes -/

theorem radix_le {radix : Nat} {mark : String} (h : (radix, mark) ∈ marks) :
    1 < radix ∧ radix ≤ 16 := by
  have hall : ∀ x ∈ marks, 1 < x.1 ∧ x.1 ≤ 16 := by decide
  exact hall _ h

/-- A digit of the radix ten. -/
theorem isDigit_of_decimal {c : Char} {d : Nat} (h : IsDigit 10 c d) : c.isDigit = true := by
  have hcases := (isDigit_iff_toNat (by decide)).mp h
  rw [isDigit_iff]
  omega

/-- The mark of a radix is found where it stands. -/
theorem radixMark_append {radix : Nat} {mark : String} (hmark : (radix, mark) ∈ marks)
    {cs : List Char} {ds : List Nat} (h : IsDigits radix cs ds) :
    radixMark (mark.toList ++ cs) = (radix, cs) := by
  have hcases : (radix = 10 ∧ mark = "") ∨ (radix, mark) ∈ marks.tail :=
    (List.mem_cons.mp hmark).imp_left Prod.mk.inj
  rcases hcases with ⟨rfl, rfl⟩ | hmark
  · refine radixMark_of_digits fun c hc => (h.forall_mem c hc).imp_right ?_
    rintro ⟨d, hd⟩
    exact isDigit_of_decimal hd
  · simp only [marks, List.tail_cons, List.mem_cons, Prod.mk.injEq, List.not_mem_nil,
      or_false] at hmark
    rcases hmark with ⟨rfl, rfl⟩ | ⟨rfl, rfl⟩ | ⟨rfl, rfl⟩ | ⟨rfl, rfl⟩ | ⟨rfl, rfl⟩ |
      ⟨rfl, rfl⟩ <;> rfl

/-- What is found is a mark, and stands there. -/
theorem exists_radixMark (cs : List Char) :
    ∃ mark, ((radixMark cs).1, mark) ∈ marks ∧ cs = mark.toList ++ (radixMark cs).2 := by
  unfold radixMark
  split
  · exact ⟨"0x", by simp [marks], rfl⟩
  · exact ⟨"0X", by simp [marks], rfl⟩
  · exact ⟨"$", by simp [marks], rfl⟩
  · exact ⟨"0b", by simp [marks], rfl⟩
  · exact ⟨"0B", by simp [marks], rfl⟩
  · exact ⟨"%", by simp [marks], rfl⟩
  · exact ⟨"", by simp [marks], rfl⟩

/-- **A number without its sign is read exactly if it is one**, and below 2 ^ 63. -/
theorem magnitude?_eq_some_iff {cs : List Char} {n : Nat} :
    magnitude? cs = some n ↔ IsMagnitude cs n ∧ n < 2 ^ 63 := by
  have hsmall : (n : Int) ≤ Quantity.greatest ↔ n < 2 ^ 63 := by
    unfold Quantity.greatest
    omega
  unfold magnitude?
  dsimp only
  rw [Option.filter_eq_some_iff, decide_eq_true_iff, hsmall]
  refine and_congr_left fun _ => ?_
  constructor
  · intro h
    obtain ⟨mark, hmark, hcs⟩ := exists_radixMark cs
    obtain ⟨ds, hds, hne, rfl⟩ := (readDigits?_filter_eq_some_iff (radix_le hmark).2).mp h
    have hmagnitude := IsMagnitude.intro hmark hds hne
    rwa [← hcs] at hmagnitude
  · rintro ⟨hmark, hds, hne⟩
    rw [radixMark_append hmark hds]
    exact (readDigits?_filter_eq_some_iff (radix_le hmark).2).mpr ⟨_, hds, hne, rfl⟩

/-- There are no white space and no signs in a number without its sign. -/
theorem IsMagnitude.solid {cs : List Char} {n : Nat} (h : IsMagnitude cs n) :
    ∀ c ∈ cs, isBlank c = false ∧ c ≠ '+' ∧ c ≠ '-' := by
  obtain ⟨hmark, hds, -⟩ := h
  have hmarks : ∀ x ∈ marks, ∀ c ∈ x.2.toList, isBlank c = false ∧ c ≠ '+' ∧ c ≠ '-' := by
    decide
  refine List.forall_mem_append.mpr ⟨hmarks _ hmark, fun c hc => ?_⟩
  rcases hds.forall_mem c hc with rfl | ⟨d, hd⟩
  · decide
  · have halphanum := hd.isAlphanum (radix_le hmark).2
    refine ⟨isBlank_of_isPlain (isPlain_of_isAlphanum halphanum), ?_, ?_⟩ <;>
    · rintro rfl
      cases halphanum

/-! ## Signs and white space -/

/-- Reading does not see white space around a text. -/
theorem parse?_congr {cs ds : List Char} (h : trim cs = trim ds) : parse? cs = parse? ds := by
  unfold parse?
  rw [h]

/-- A number without a sign. -/
theorem parse?_eq_some_iff {cs : List Char} (hsign : (trim cs).head? ≠ some '-') {v : Int} :
    parse? cs = some v ↔ ∃ n : Nat, magnitude? (trim cs) = some n ∧ v = n := by
  unfold parse?
  split
  · next rest htrim =>
    rw [htrim] at hsign
    exact absurd rfl hsign
  · cases magnitude? (trim cs) <;> simp [eq_comm]

/-- A number with a minus sign is a number without one, negated. -/
theorem parse?_minus_eq_some_iff {cs : List Char} {v : Int} :
    parse? ('-' :: cs) = some v ↔ ∃ n : Nat, magnitude? (trim cs) = some n ∧ v = -n := by
  have hparse : parse? ('-' :: cs) =
      (magnitude? (trimStart (trimEnd cs))).map fun n => -(n : Int) := by
    unfold parse?
    rw [trim_cons (by decide)]
    show Option.map _ _ = _
    cases magnitude? (trimStart (trimEnd cs)) <;> rfl
  rw [hparse, trimStart_trimEnd]
  cases magnitude? (trim cs) <;> simp [eq_comm]

theorem head?_trim_ne {cs : List Char} (hminus : '-' ∉ cs) : (trim cs).head? ≠ some '-' := by
  intro hhead
  obtain ⟨front, behind, -, -, hcs⟩ := isPadded_trim cs
  refine hminus (hcs ▸ ?_)
  exact List.mem_append_left _ (List.mem_append_right _ (List.mem_of_mem_head? hhead))

/-- A number of the grammar is read. -/
theorem IsNumber.parse?_eq {text : List Char} {v : Int} (h : IsNumber text v) :
    parse? text = some v := by
  cases h with
  | @plain cs _ n hcs hn htext =>
    have hminus : '-' ∉ cs := fun hmem => (hcs.solid _ hmem).2.2 rfl
    have htrim : trim cs = cs := trim_eq_self fun c hc => (hcs.solid c hc).1
    rw [parse?_congr htext.trim_eq]
    refine (parse?_eq_some_iff (head?_trim_ne hminus)).mpr ⟨n, ?_, rfl⟩
    rw [htrim]
    exact magnitude?_eq_some_iff.mpr ⟨hcs, hn⟩
  | @minus gap cs _ n hgap hcs hn htext =>
    have htrim : trim (gap ++ cs) = cs := by
      rw [← List.append_nil (gap ++ cs)]
      exact trim_pad hgap (fun c hc => (hcs.solid c hc).1) (by simp)
    rw [parse?_congr htext.trim_eq]
    refine parse?_minus_eq_some_iff.mpr ⟨n, ?_, rfl⟩
    rw [htrim]
    exact magnitude?_eq_some_iff.mpr ⟨hcs, hn⟩

/-- What is read is a number of the grammar. -/
theorem isNumber_of_parse? {text : List Char} {v : Int} (h : parse? text = some v) :
    IsNumber text v := by
  by_cases hsign : (trim text).head? = some '-'
  · obtain ⟨rest, hrest⟩ := List.head?_eq_some_iff.mp hsign
    rw [parse?_congr (trim_trim text).symm, hrest] at h
    obtain ⟨n, hn, rfl⟩ := parse?_minus_eq_some_iff.mp h
    obtain ⟨hmagnitude, hsmall⟩ := magnitude?_eq_some_iff.mp hn
    -- white space behind the number is white space around the text
    obtain ⟨gap, behind, hgap, hbehind, hpad⟩ := isPadded_trim rest
    have hinner : IsPadded ('-' :: (gap ++ trim rest)) (trim text) :=
      ⟨[], behind, by simp, hbehind, by rw [hrest, List.nil_append, List.cons_append, ← hpad]⟩
    exact .minus hgap hmagnitude hsmall (hinner.trans (isPadded_trim text))
  · obtain ⟨n, hn, rfl⟩ := (parse?_eq_some_iff hsign).mp h
    obtain ⟨hmagnitude, hsmall⟩ := magnitude?_eq_some_iff.mp hn
    exact .plain hmagnitude hsmall (isPadded_trim text)

/-! ## The main result -/

/-- **The grammar of numbers.** A text is read exactly if it is a number of the grammar, and then
as that number. Every integer that is small enough is read from each of its spellings: in every
radix, in either case, with any zeros in front and any underscores among its digits. -/
theorem number_grammar :
    (∀ text v, parse? text = some v ↔ IsNumber text v) ∧
    ∀ n : Int, n.natAbs < 2 ^ 63 → ∀ radix mark, (radix, mark) ∈ marks → ∀ zeros cs,
      (cs.filter (· != '_')).map Char.toLower =
        List.replicate zeros '0' ++ Nat.toDigits radix n.natAbs →
      (0 ≤ n → ∀ text, IsPadded (mark.toList ++ cs) text → parse? text = some n) ∧
      (n ≤ 0 → ∀ gap text, (∀ c ∈ gap, isBlank c = true) →
        IsPadded ('-' :: (gap ++ (mark.toList ++ cs))) text → parse? text = some n) := by
  refine ⟨fun _ _ => ⟨isNumber_of_parse?, IsNumber.parse?_eq⟩, ?_⟩
  intro n hn radix mark hmark zeros cs hcs
  obtain ⟨ds, hds, hne, hvalue⟩ := exists_isDigits_of_spelling (radix_le hmark).1 hcs
  have hmagnitude : IsMagnitude (mark.toList ++ cs) n.natAbs := hvalue ▸ .intro hmark hds hne
  constructor
  · intro hpos text htext
    rw [(IsNumber.plain hmagnitude hn htext).parse?_eq, Int.natAbs_of_nonneg hpos]
  · intro hneg gap text hgap htext
    rw [(IsNumber.minus hgap hmagnitude hn htext).parse?_eq, Int.ofNat_natAbs_of_nonpos hneg,
      Int.neg_neg]

/-- A hexadecimal number with all that the grammar allows. -/
theorem number_grammar_hex :
    ("_0fF_".toList.filter (· != '_')).map Char.toLower =
        List.replicate 1 '0' ++ Nat.toDigits 16 255 ∧
      parse? "\t- 0X_0fF_ ".toList = some (-255) := by
  have hspelling : ("_0fF_".toList.filter (· != '_')).map Char.toLower =
      List.replicate 1 '0' ++ Nat.toDigits 16 255 := by
    decide
  refine ⟨hspelling, ?_⟩
  exact (number_grammar.2 (-255) (by decide) 16 "0X" (by decide) 1 _ hspelling).2 (by decide) [' ']
    _ (by decide) ⟨['\t'], [' '], by decide, by decide, rfl⟩

end Stm8.Number
