import Stm8.Number
import Stm8.Proofs.Text.Endings

/-!
# Numbers are read as they are written

> `readDigits?_toDigits`: the digits of a number, with zeros in front, are read back
> as the number.
> `parse?_hex`: so is a number in hexadecimal with its mark.
> `parse?_toDigits`: so are decimal digits.
> `parse?_eq_none`: a sign behind the first character makes a text no number.
-/

namespace Stm8

namespace Text

/-! ## Digits -/

theorem positional_concat (radix : Nat) (ds : List Nat) (d : Nat) :
    positional radix (ds ++ [d]) = radix * positional radix ds + d := by
  rw [positional, List.foldl_append]
  rfl

/-- The digits of a number are below the radix, and their value is the number. -/
theorem exists_toDigits {radix : Nat} (hradix : 1 < radix) (n : Nat) :
    ∃ ds, (∀ d ∈ ds, d < radix) ∧ Nat.toDigits radix n = ds.map Nat.digitChar ∧
      positional radix ds = n := by
  by_cases hn : n < radix
  · refine ⟨[n], List.forall_mem_singleton.mpr hn, Nat.toDigits_of_lt_base hn, ?_⟩
    simp [positional]
  · obtain ⟨ds, hds, htext, hvalue⟩ := exists_toDigits hradix (n / radix)
    have hlast : n % radix < radix := Nat.mod_lt n (by omega)
    refine ⟨ds ++ [n % radix], ?_, ?_, ?_⟩
    · exact List.forall_mem_append.mpr ⟨hds, List.forall_mem_singleton.mpr hlast⟩
    · rw [Nat.toDigits_of_base_le hradix (Nat.not_lt.mp hn), htext, List.map_append]
      rfl
    · rw [positional_concat, hvalue, Nat.div_add_mod]
termination_by n
decreasing_by exact Nat.div_lt_self (by omega) hradix

/-- Every digit of a number is one below the radix. -/
theorem exists_of_mem_toDigits {radix : Nat} (hradix : 1 < radix) (n : Nat) :
    ∀ c ∈ Nat.toDigits radix n, ∃ d < radix, c = Nat.digitChar d := by
  intro c hc
  obtain ⟨ds, hds, htext, -⟩ := exists_toDigits hradix n
  rw [htext] at hc
  obtain ⟨d, hd, rfl⟩ := List.mem_map.mp hc
  exact ⟨d, hds d hd, rfl⟩

/-- A digit has its value in every radix that has it. -/
theorem digit?_digitChar {radix d : Nat} (hd : d < radix) (hradix : radix ≤ 16) :
    digit? radix (Nat.digitChar d) = some d := by
  have hvalue : ∀ d < 16, digit? 16 (Nat.digitChar d) = some d := by decide
  have h := hvalue d (by omega)
  unfold digit? at h ⊢
  rw [Option.filter_eq_some_iff] at h ⊢
  exact ⟨h.1, decide_eq_true hd⟩

/-- Digits are read as their value. -/
theorem readDigits?_digitChar {radix : Nat} (hradix : radix ≤ 16) {ds : List Nat} (hne : ds ≠ [])
    (hds : ∀ d ∈ ds, d < radix) :
    readDigits? radix (ds.map Nat.digitChar) = some (positional radix ds) := by
  have hread : (ds.map Nat.digitChar).mapM (digit? radix) = some ds := by
    clear hne
    induction ds with
    | nil => rfl
    | cons d ds ih =>
      rw [List.forall_mem_cons] at hds
      rw [List.map_cons, List.mapM_cons, digit?_digitChar hds.1 hradix, ih hds.2]
      rfl
  unfold readDigits?
  rw [hread, if_neg]
  · rfl
  · rw [List.isEmpty_map, List.isEmpty_iff]
    exact hne

/-- Zeros in front of a number do not count. -/
theorem positional_replicate_zero (radix k : Nat) (ds : List Nat) :
    positional radix (List.replicate k 0 ++ ds) = positional radix ds := by
  induction k with
  | zero => rfl
  | succ k ih => rw [← ih, List.replicate_succ]; simp [positional]

/-- The digits of a number, with zeros in front, are read back as the number. -/
theorem readDigits?_toDigits {radix : Nat} (hradix : 1 < radix) (hradix' : radix ≤ 16)
    (least n : Nat) :
    readDigits? radix ((Nat.toDigits radix n).leftpad least '0') = some n := by
  obtain ⟨ds, hds, htext, hvalue⟩ := exists_toDigits hradix n
  have hne : ds ≠ [] := by
    rintro rfl
    exact Nat.toDigits_ne_nil htext
  have hpadded : ∃ k, (Nat.toDigits radix n).leftpad least '0' =
      (List.replicate k 0 ++ ds).map Nat.digitChar :=
    ⟨_, by rw [List.leftpad, htext, List.map_append, List.map_replicate]; rfl⟩
  obtain ⟨k, hk⟩ := hpadded
  have hall : ∀ d ∈ List.replicate k 0 ++ ds, d < radix := by
    refine List.forall_mem_append.mpr ⟨fun d hd => ?_, hds⟩
    rw [(List.mem_replicate.mp hd).2]
    omega
  rw [hk, readDigits?_digitChar hradix' (List.append_ne_nil_of_right_ne_nil _ hne) hall,
    positional_replicate_zero, hvalue]

/-- Text with a character that is no digit is not read. -/
theorem readDigits?_eq_none {radix : Nat} {cs : List Char} {c : Char} (hc : c ∈ cs)
    (hdigit : digit? radix c = none) : readDigits? radix cs = none := by
  have hnone : cs.mapM (digit? radix) = none := by
    induction cs with
    | nil => cases hc
    | cons d ds ih =>
      rw [List.mapM_cons]
      rcases List.mem_cons.mp hc with rfl | hc
      · rw [hdigit]
        rfl
      · rw [ih hc]
        cases digit? radix d <;> rfl
  unfold readDigits?
  rw [hnone]
  split <;> rfl

end Text

namespace Number

open Stm8.Text

/-! ## Hexadecimal numbers -/

/-- The text of a number consists of letters and digits. -/
theorem isAlphanum_of_mem_hex {least n : Nat} {c : Char} (hc : c ∈ (hex least n).toList) :
    c.isAlphanum = true := by
  have hdigits : ∀ d < 16, (Nat.digitChar d).isAlphanum = true := by decide
  rw [hex, String.toList_ofList, List.leftpad, List.mem_append] at hc
  rcases hc with hc | hc
  · rw [(List.mem_replicate.mp hc).2]
    rfl
  · obtain ⟨d, hd, rfl⟩ := exists_of_mem_toDigits (by decide) n c hc
    exact hdigits d hd

/-- A number without its sign, in hexadecimal with its mark, is read as it is. -/
theorem magnitude?_hex {n : Nat} (hn : (n : Int) ≤ Quantity.greatest) (least : Nat) :
    magnitude? ("0x" ++ hex least n).toList = some n := by
  have hplain : (hex least n).toList.filter (· != '_') = (hex least n).toList := by
    rw [List.filter_eq_self]
    intro c hc
    have halphanum := isAlphanum_of_mem_hex hc
    rw [bne_iff_ne]
    rintro rfl
    cases halphanum
  have hmark : radixMark ("0x" ++ hex least n).toList = (16, (hex least n).toList) := by
    rw [String.toList_append]
    rfl
  unfold magnitude?
  simp only [hmark, hplain]
  rw [hex, String.toList_ofList, readDigits?_toDigits (by decide) (by decide)]
  simp [hn]

theorem isPlain_of_mem_hex {least n : Nat} {c : Char} (hc : c ∈ ("0x" ++ hex least n).toList) :
    isPlain c = true := by
  rw [String.toList_append, List.mem_append] at hc
  rcases hc with hc | hc
  · have hmark : ∀ c ∈ "0x".toList, isPlain c = true := by decide
    exact hmark c hc
  · exact isPlain_of_isAlphanum (isAlphanum_of_mem_hex hc)

/-- A number in hexadecimal is read as it is. -/
theorem parse?_hex {n : Nat} (hn : (n : Int) ≤ Quantity.greatest) (least : Nat) :
    parse? ("0x" ++ hex least n).toList = some (n : Int) := by
  have hmagnitude := magnitude?_hex hn least
  have htrim : trim ("0x" ++ hex least n).toList = ("0x" ++ hex least n).toList :=
    trim_eq_self fun c hc => isBlank_of_isPlain (isPlain_of_mem_hex hc)
  unfold parse?
  rw [htrim]
  rw [String.toList_append] at hmagnitude ⊢
  split
  next hsign => cases hsign
  next => rw [hmagnitude]; rfl

/-- A number in hexadecimal with a minus sign in front is read as it is. -/
theorem parse?_neg_hex {n : Nat} (hn : (n : Int) ≤ Quantity.greatest) (least : Nat) :
    parse? ('-' :: ("0x" ++ hex least n).toList) = some (-(n : Int)) := by
  have hplain : ∀ c ∈ ("0x" ++ hex least n).toList, isBlank c = false := fun c hc =>
    isBlank_of_isPlain (isPlain_of_mem_hex hc)
  have htrim :
      trim ('-' :: ("0x" ++ hex least n).toList) = '-' :: ("0x" ++ hex least n).toList := by
    apply trim_eq_self
    rw [List.forall_mem_cons]
    exact ⟨rfl, hplain⟩
  unfold parse?
  rw [htrim]
  split
  next hsign =>
    rw [← (List.cons.inj hsign).2, trimStart, dropWhile_eq_self hplain, magnitude?_hex hn]
    rfl
  next hsign => exact absurd rfl (hsign _)

/-! ## Decimal numbers -/

/-- Digits without a mark in front are decimal. -/
theorem radixMark_of_digits {cs : List Char} (h : ∀ c ∈ cs, c = '_' ∨ c.isDigit = true) :
    radixMark cs = (10, cs) := by
  unfold radixMark
  split
  case h_7 => rfl
  all_goals
    rw [List.forall_mem_cons] at h
    simp at h

theorem isPlain_of_mem_toDigits {n : Nat} {c : Char} (hc : c ∈ Nat.toDigits 10 n) :
    isPlain c = true := by
  have hdigit : c.isDigit = true := Nat.isDigit_of_mem_toDigits (by decide) (by decide) hc
  exact isPlain_of_isAlphanum (by rw [Char.isAlphanum, hdigit, Bool.or_true])

/-- The digits of a number are read as the number. -/
theorem parse?_toDigits {n : Nat} (hn : (n : Int) ≤ Quantity.greatest) :
    parse? (Nat.toDigits 10 n) = some (n : Int) := by
  have hdigits : ∀ c ∈ Nat.toDigits 10 n, c.isDigit = true := fun c hc =>
    Nat.isDigit_of_mem_toDigits (by decide) (by decide) hc
  have hkeep : (Nat.toDigits 10 n).filter (· != '_') = Nat.toDigits 10 n := by
    rw [List.filter_eq_self]
    intro c hc
    rw [bne_iff_ne]
    rintro rfl
    cases hdigits '_' hc
  have hpadded : readDigits? 10 ((Nat.toDigits 10 n).leftpad 0 '0') = some n :=
    readDigits?_toDigits (by decide) (by decide) 0 n
  have hread : readDigits? 10 (Nat.toDigits 10 n) = some n := by
    simpa [List.leftpad] using hpadded
  have hmagnitude : magnitude? (Nat.toDigits 10 n) = some n := by
    unfold magnitude?
    simp only [radixMark_of_digits fun c hc => Or.inr (hdigits c hc), hkeep, hread]
    simp [hn]
  unfold parse?
  rw [trim_eq_self fun c hc => isBlank_of_isPlain (isPlain_of_mem_toDigits hc)]
  split
  next rest hsign =>
    have hminus := hdigits '-' (by rw [hsign]; exact List.mem_cons_self)
    cases hminus
  next => rw [hmagnitude]; rfl

/-! ## Signs -/

/-- The mark of a radix is no sign. -/
theorem mem_radixMark {cs : List Char} {sign : Char} (hsign : sign = '+' ∨ sign = '-')
    (hmem : sign ∈ cs) : sign ∈ (radixMark cs).2 := by
  unfold radixMark
  split
  case h_7 => exact hmem
  all_goals rcases hsign with rfl | rfl <;> simpa using hmem

/-- Text with a sign in it is no number behind a sign. -/
theorem magnitude?_eq_none {cs : List Char} {sign : Char} (hsign : sign = '+' ∨ sign = '-')
    (hmem : sign ∈ cs) : magnitude? cs = none := by
  have hkept : sign ∈ (radixMark cs).2.filter (· != '_') := by
    rw [List.mem_filter]
    refine ⟨mem_radixMark hsign hmem, ?_⟩
    rcases hsign with rfl | rfl <;> rfl
  have hdigit : digit? (radixMark cs).1 sign = none := by
    rcases hsign with rfl | rfl <;> rfl
  unfold magnitude?
  dsimp only
  rw [readDigits?_eq_none hkept hdigit]
  rfl

/-- Text with a sign behind its first character is no number. -/
theorem parse?_eq_none {c sign : Char} {cs : List Char}
    (hblank : ∀ d ∈ c :: cs, isBlank d = false) (hc : c ≠ '-')
    (hsign : sign = '+' ∨ sign = '-') (hmem : sign ∈ cs) : parse? (c :: cs) = none := by
  unfold parse?
  rw [trim_eq_self hblank]
  split
  next hfirst => exact absurd (List.cons.inj hfirst).1 hc
  next => rw [magnitude?_eq_none hsign (List.mem_cons_of_mem c hmem)]; rfl

end Number

end Stm8
