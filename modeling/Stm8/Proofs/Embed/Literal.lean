import Stm8.Embed.Literal
import Stm8.Proofs.Text.Digits

/-!
# What literals stand for

An integer literal is digits behind the mark of a radix, perhaps with the type behind them,
and a string literal is a text between quotes. The readers take exactly these apart:

> `readWord?_of_isWord`: an integer literal has the value of its digits.
> `readString_of_isString`, `isString_of_readString`: a string literal has the text between
> its quotes.
-/

namespace Stm8.Embed

open Stm8.Text

/-! ## Integers -/

/-- The radices with their marks. -/
def radixMarks : List (Nat × String) :=
  [(10, ""), (16, "0x"), (16, "0X"), (2, "0b"), (2, "0B"), (8, "0o"), (8, "0O")]

/-- Whether the text is an integer literal with this value: without its underscores, the
mark of a radix, digits in it, and nothing or the type. -/
def IsWord (text : String) (value : UInt32) : Prop :=
  ∃ radix mark digits ending, (radix, mark) ∈ radixMarks ∧ (ending = "" ∨ ending = "u32") ∧
    text.toList.filter (· != '_') = mark.toList ++ digits ++ ending.toList ∧
    readDigits? radix digits = some value.toNat

/-- A character that is no digit does not stand among digits. -/
theorem not_mem_of_readDigits? {radix n : Nat} {digits : List Char}
    (h : readDigits? radix digits = some n) {c : Char} (hc : digit? radix c = none) :
    c ∉ digits := by
  intro hmem
  rw [readDigits?_eq_none hmem hc] at h
  cases h

theorem isDigit_of_digit? {c : Char} (h : digit? 10 c ≠ none) : c.isDigit = true := by
  by_cases hdigit : c.isDigit = true
  · exact hdigit
  · refine absurd ?_ h
    unfold digit?
    rw [if_neg hdigit]
    split
    · exact Option.filter_eq_none_iff.mpr fun d hd => by
        obtain rfl := Option.some.inj hd
        simp
    · split
      · exact Option.filter_eq_none_iff.mpr fun d hd => by
          obtain rfl := Option.some.inj hd
          simp
      · rfl

/-- Digits in the least radices are no letters behind `f`, no signs and no quotes. -/
theorem digit?_eq_none {radix : Nat} {mark : String} (hmark : (radix, mark) ∈ radixMarks) :
    digit? radix 'u' = none ∧ digit? radix '+' = none ∧ digit? radix quote = none ∧
      digit? radix '\x27' = none := by
  have hall : ∀ x ∈ radixMarks, digit? x.1 'u' = none ∧ digit? x.1 '+' = none ∧
      digit? x.1 quote = none ∧ digit? x.1 '\x27' = none := by
    decide
  exact hall _ hmark

/-- The mark of a radix is found where it stands. -/
theorem wordRadix_append {radix n : Nat} {mark : String} (hmark : (radix, mark) ∈ radixMarks)
    {digits : List Char} (hdigits : readDigits? radix digits = some n) :
    wordRadix (mark.toList ++ digits) = (radix, digits) := by
  have hcases : (radix = 10 ∧ mark = "") ∨ (radix, mark) ∈ radixMarks.tail :=
    (List.mem_cons.mp hmark).imp_left Prod.mk.inj
  rcases hcases with ⟨rfl, rfl⟩ | hmark
  · have hdecimal : ∀ c ∈ digits, c.isDigit = true := fun c hc =>
      isDigit_of_digit? fun hnone => not_mem_of_readDigits? hdigits hnone hc
    show wordRadix digits = _
    unfold wordRadix
    split
    case h_7 => rfl
    all_goals
      rw [List.forall_mem_cons] at hdecimal
      simp at hdecimal
  · simp only [radixMarks, List.tail_cons, List.mem_cons, Prod.mk.injEq, List.not_mem_nil,
      or_false] at hmark
    rcases hmark with ⟨rfl, rfl⟩ | ⟨rfl, rfl⟩ | ⟨rfl, rfl⟩ | ⟨rfl, rfl⟩ | ⟨rfl, rfl⟩ |
      ⟨rfl, rfl⟩ <;> rfl

/-- What is found is a mark, and stands there. -/
theorem exists_wordRadix (cs : List Char) :
    ∃ mark, ((wordRadix cs).1, mark) ∈ radixMarks ∧ cs = mark.toList ++ (wordRadix cs).2 := by
  unfold wordRadix
  split
  · exact ⟨"0x", by simp [radixMarks], rfl⟩
  · exact ⟨"0X", by simp [radixMarks], rfl⟩
  · exact ⟨"0b", by simp [radixMarks], rfl⟩
  · exact ⟨"0B", by simp [radixMarks], rfl⟩
  · exact ⟨"0o", by simp [radixMarks], rfl⟩
  · exact ⟨"0O", by simp [radixMarks], rfl⟩
  · exact ⟨"", by simp [radixMarks], rfl⟩

/-- An ending is taken away. -/
theorem withoutEnding_append (ending cs : List Char) :
    withoutEnding ending (cs ++ ending) = cs := by
  rw [withoutEnding, if_pos (List.isSuffixOf_iff_suffix.mpr (List.suffix_append cs ending)),
    List.length_append, Nat.add_sub_cancel, List.take_left]

/-- There is nothing to take away from a text without a character of the ending. -/
theorem withoutEnding_eq_self {ending cs : List Char} {c : Char} (hc : c ∈ ending)
    (hmem : c ∉ cs) : withoutEnding ending cs = cs := by
  rw [withoutEnding, if_neg]
  intro hsuffix
  exact hmem ((List.isSuffixOf_iff_suffix.mp hsuffix).subset hc)

/-- What is taken away stood at the end. -/
theorem withoutEnding_cases (ending cs : List Char) :
    cs = withoutEnding ending cs ∨ cs = withoutEnding ending cs ++ ending := by
  unfold withoutEnding
  split
  · next hsuffix =>
    obtain ⟨front, rfl⟩ := List.isSuffixOf_iff_suffix.mp hsuffix
    rw [List.length_append, Nat.add_sub_cancel, List.take_left]
    exact Or.inr rfl
  · exact Or.inl rfl

/-- A sign is skipped only in front of digits. -/
theorem withoutPlus_cases (cs : List Char) :
    withoutPlus cs = cs ∨ cs = '+' :: withoutPlus cs := by
  unfold withoutPlus
  split
  · exact Or.inr rfl
  · exact Or.inl rfl

/-- A value is read from every integer literal. -/
theorem readWord?_of_isWord {text : String} {value : UInt32} (h : IsWord text value) :
    readWord? text.toList = some value := by
  obtain ⟨radix, mark, digits, ending, hmark, hending, htext, hdigits⟩ := h
  obtain ⟨hletter, hplus, -, -⟩ := digit?_eq_none hmark
  have hcut : withoutEnding "u32".toList (text.toList.filter (· != '_')) =
      mark.toList ++ digits := by
    rw [htext]
    rcases hending with rfl | rfl
    · have hmarks : ∀ x ∈ radixMarks, 'u' ∉ x.2.toList := by decide
      show withoutEnding _ (mark.toList ++ digits ++ []) = _
      rw [List.append_nil]
      refine withoutEnding_eq_self (c := 'u') (by decide) fun hmem => ?_
      rcases List.mem_append.mp hmem with hmem | hmem
      · exact hmarks _ hmark hmem
      · exact not_mem_of_readDigits? hdigits hletter hmem
    · exact withoutEnding_append _ _
  have hsign : withoutPlus digits = digits := by
    rcases withoutPlus_cases digits with hsame | hsigned
    · exact hsame
    · refine absurd ?_ (not_mem_of_readDigits? hdigits hplus)
      rw [hsigned]
      exact List.mem_cons_self
  unfold readWord?
  rw [hcut, wordRadix_append hmark hdigits]
  dsimp only
  rw [hsign, hdigits, Option.filter_some, if_pos (decide_eq_true value.toNat_lt)]
  exact congrArg some value.ofNat_toNat

/-- A text that is read is an integer literal, unless there is a sign in front of its
digits. -/
theorem isWord_of_readWord? {text : String} {value : UInt32}
    (hunsigned : ∀ radix mark digits ending n, (radix, mark) ∈ radixMarks →
      (ending = "" ∨ ending = "u32") → readDigits? radix digits = some n →
      text.toList.filter (· != '_') ≠ mark.toList ++ '+' :: digits ++ ending.toList)
    (h : readWord? text.toList = some value) : IsWord text value := by
  unfold readWord? at h
  dsimp only at h
  obtain ⟨n, hn, rfl⟩ := Option.map_eq_some_iff.mp h
  obtain ⟨hdigits, hsmall⟩ := Option.filter_eq_some_iff.mp hn
  replace hsmall : n < 0x100000000 := of_decide_eq_true hsmall
  -- the digits stand between a mark and an ending
  have hending : ∃ ending : String, (ending = "" ∨ ending = "u32") ∧
      text.toList.filter (· != '_') =
        withoutEnding "u32".toList (text.toList.filter (· != '_')) ++ ending.toList := by
    rcases withoutEnding_cases "u32".toList (text.toList.filter (· != '_')) with hall | hcut
    · exact ⟨"", Or.inl rfl, hall.trans (List.append_nil _).symm⟩
    · exact ⟨"u32", Or.inr rfl, hcut⟩
  obtain ⟨ending, hallowed, htext⟩ := hending
  obtain ⟨mark, hmark, hbody⟩ :=
    exists_wordRadix (withoutEnding "u32".toList (text.toList.filter (· != '_')))
  rw [hbody] at htext
  have hplain := withoutPlus_cases
    (wordRadix (withoutEnding "u32".toList (text.toList.filter (· != '_')))).2
  rcases hplain with hplain | hsigned
  · rw [hplain] at hdigits
    refine ⟨_, mark, _, ending, hmark, hallowed, htext, ?_⟩
    rw [UInt32.toNat_ofNat_of_lt' hsmall]
    exact hdigits
  · rw [hsigned] at htext
    exact absurd htext (hunsigned _ mark _ ending n hmark hallowed hdigits)

/-- An integer literal has no quotes. -/
theorem not_mem_of_isWord {text : String} {value : UInt32} (h : IsWord text value) :
    quote ∉ text.toList ∧ '\x27' ∉ text.toList := by
  obtain ⟨radix, mark, digits, ending, hmark, hending, htext, hdigits⟩ := h
  obtain ⟨-, -, hquote, hsingle⟩ := digit?_eq_none hmark
  have hmarks : ∀ x ∈ radixMarks, quote ∉ x.2.toList ∧ '\x27' ∉ x.2.toList := by decide
  have hends : quote ∉ ending.toList ∧ '\x27' ∉ ending.toList := by
    rcases hending with rfl | rfl <;> decide
  have hall : ∀ c, c ≠ '_' → c ∉ mark.toList → c ∉ digits → c ∉ ending.toList →
      c ∉ text.toList := by
    intro c hc hfront hmiddle hback hmem
    have hkept : c ∈ text.toList.filter (· != '_') :=
      List.mem_filter.mpr ⟨hmem, bne_iff_ne.mpr hc⟩
    rw [htext, List.mem_append, List.mem_append] at hkept
    rcases hkept with (hkept | hkept) | hkept
    · exact hfront hkept
    · exact hmiddle hkept
    · exact hback hkept
  exact ⟨hall _ (by decide) (hmarks _ hmark).1 (not_mem_of_readDigits? hdigits hquote) hends.1,
    hall _ (by decide) (hmarks _ hmark).2 (not_mem_of_readDigits? hdigits hsingle) hends.2⟩

/-! ## Strings -/

/-- Whether the text is a string literal that spells the source: a plain one, or a raw one
with the same number of `#` outside of both quotes. -/
def IsString (text source : String) : Prop :=
  (∃ body, text.toList = quote :: body ++ [quote] ∧ source = String.ofList (unescape body)) ∨
    ∃ hashes body, text.toList = 'r' :: (List.replicate hashes '#' ++ [quote] ++ body ++
        quote :: List.replicate hashes '#') ∧
      source = String.ofList body

/-- A character that is no backslash stands for itself. -/
theorem unescape_of_ne {c : Char} (h : c ≠ '\\') (cs : List Char) :
    unescape (c :: cs) = c :: unescape cs := by
  rw [unescape.eq_def]
  split
  next htext => cases htext
  next htext => exact absurd (List.cons.inj htext).1 h
  next htext => exact absurd (List.cons.inj htext).1 h
  next htext => exact absurd (List.cons.inj htext).1 h
  next htext =>
    obtain ⟨rfl, rfl⟩ := List.cons.inj htext
    rfl

theorem unescape_append {front : List Char} (h : '\\' ∉ front) (cs : List Char) :
    unescape (front ++ cs) = front ++ unescape cs := by
  induction front with
  | nil => rfl
  | cons c front ih =>
    rw [List.mem_cons, not_or] at h
    rw [List.cons_append, unescape_of_ne (Ne.symm h.1), ih h.2, List.cons_append]

/-- Without a backslash, what stands between the quotes stands for itself. -/
theorem unescape_of_not_mem {cs : List Char} (h : '\\' ∉ cs) : unescape cs = cs := by
  rw [← List.append_nil cs, unescape_append h, unescape]

/-- A string literal is no integer literal. -/
theorem IsString.not_isWord {text source : String} (h : IsString text source) (value : UInt32) :
    ¬ IsWord text value := by
  intro hword
  refine (not_mem_of_isWord hword).1 ?_
  rcases h with ⟨body, htext, -⟩ | ⟨hashes, body, htext, -⟩
  · rw [htext]
    exact List.mem_append_right _ (List.mem_singleton_self _)
  · rw [htext]
    exact List.mem_cons_of_mem _ (List.mem_append_right _ List.mem_cons_self)

/-- What stands between two texts is found, and nothing else. -/
theorem between?_eq_some_iff {opening closing cs body : List Char} :
    between? opening closing cs = some body ↔ cs = opening ++ body ++ closing := by
  unfold between?
  constructor
  · intro h
    split at h
    · next hends =>
      rw [Bool.and_eq_true, List.isPrefixOf_iff_prefix, List.isSuffixOf_iff_suffix] at hends
      obtain ⟨⟨rest, rfl⟩, hclosing⟩ := hends
      rw [List.drop_left] at hclosing h
      obtain ⟨middle, rfl⟩ := hclosing
      rw [← Option.some.inj h, List.length_append, List.length_append, Nat.add_sub_cancel_left,
        Nat.add_sub_cancel, List.take_left, List.append_assoc]
    · cases h
  · rintro rfl
    rw [List.append_assoc, List.drop_left, List.length_append, List.length_append,
      Nat.add_sub_cancel_left, Nat.add_sub_cancel, List.take_left, if_pos]
    rw [Bool.and_eq_true, List.isPrefixOf_iff_prefix, List.isSuffixOf_iff_suffix]
    exact ⟨List.prefix_append _ _, List.suffix_append _ _⟩

/-- The `#` in front of the quote are all counted. -/
theorem takeWhile_hashes (hashes : Nat) (behind : List Char) :
    (List.replicate hashes '#' ++ quote :: behind).takeWhile (· == '#') =
      List.replicate hashes '#' := by
  rw [List.takeWhile_append_of_pos (by simp), List.takeWhile_cons_of_neg (by decide),
    List.append_nil]

theorem readString_quote (cs : List Char) :
    readString (quote :: cs) =
      match between? [quote] [quote] (quote :: cs) with
      | some body => .ok (unescape body)
      | none => .error .noString := rfl

theorem readString_raw (raw : List Char) :
    readString ('r' :: raw) =
      match between? (raw.takeWhile (· == '#') ++ [quote]) (quote :: raw.takeWhile (· == '#'))
        raw with
      | some body => .ok body
      | none => .error .malformedRaw := rfl

/-- The text of a string literal is what stands between its quotes. -/
theorem readString_of_isString {text source : String} (h : IsString text source) :
    ∃ body, readString text.toList = .ok body ∧ source = String.ofList body := by
  rcases h with ⟨body, htext, rfl⟩ | ⟨hashes, body, htext, rfl⟩
  · refine ⟨unescape body, ?_, rfl⟩
    have hbetween : between? [quote] [quote] (quote :: (body ++ [quote])) = some body :=
      between?_eq_some_iff.mpr rfl
    rw [htext, List.cons_append, readString_quote, hbetween]
  · refine ⟨body, ?_, rfl⟩
    have hcount : (List.replicate hashes '#' ++ [quote] ++ body ++
        quote :: List.replicate hashes '#').takeWhile (· == '#') = List.replicate hashes '#' := by
      rw [List.append_assoc, List.append_assoc, List.singleton_append, takeWhile_hashes]
    rw [htext, readString_raw, hcount, between?_eq_some_iff.mpr rfl]

/-- Nothing else has a text. -/
theorem isString_of_readString {text : String} {body : List Char}
    (h : readString text.toList = .ok body) : IsString text (String.ofList body) := by
  unfold readString at h
  split at h
  · next raw htext =>
    dsimp only at h
    split at h
    · next found hbetween =>
      obtain rfl := Except.ok.inj h
      have hhashes : raw.takeWhile (· == '#') =
          List.replicate (raw.takeWhile (· == '#')).length '#' := by
        refine List.eq_replicate_iff.mpr ⟨rfl, fun c hc => ?_⟩
        exact beq_iff_eq.mp (List.all_eq_true.mp List.all_takeWhile c hc)
      rw [between?_eq_some_iff, hhashes] at hbetween
      exact Or.inr ⟨_, found, by rw [htext, ← hbetween], rfl⟩
    · cases h
  · split at h
    · next found hbetween =>
      obtain rfl := Except.ok.inj h
      exact Or.inl ⟨found, between?_eq_some_iff.mp hbetween, rfl⟩
    · cases h

end Stm8.Embed
