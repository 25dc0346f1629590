import Stm8.Text.Ascii
import Stm8.Text.Blank

/-!
# Trimming and endings of plain texts

Numbers, names and their sums consist of `isPlain` characters: no white space, and none
of the signs with which operands and lines are put together. What is added to such a text is
removed again without a trace:

> `trim_pad`: trimming leaves what stands between white space.
> `dropEnding?_append`: an ending is found where one was put.
> `dropEnding?_append_eq_none`, `dropEnding?_eq_none_of_dot`: and no other one is.
-/

namespace Stm8.Text

/-- What all characters of a text are like is decided by looking at these, however many
other characters there are. -/
instance decidableForallMem {p : Char → Prop} [DecidablePred p] (cs : List Char) :
    Decidable (∀ c ∈ cs, p c) :=
  List.decidableBAll p cs

/-! ## Plain characters -/

/-- Whether the character can stand in a number, in a name, or in a sum of them. -/
def isPlain (c : Char) : Bool :=
  c.isAlphanum || c == '_' || c == '.' || c == '$' || c == '-' || c == '+'

theorem isUpper_iff {c : Char} : c.isUpper = true ↔ 65 ≤ c.toNat ∧ c.toNat ≤ 90 := by
  show decide (65 ≤ c.val ∧ c.val ≤ 90) = true ↔ _
  rw [decide_eq_true_iff]
  exact Iff.rfl

theorem isLower_iff {c : Char} : c.isLower = true ↔ 97 ≤ c.toNat ∧ c.toNat ≤ 122 := by
  show (decide (97 ≤ c.val) && decide (c.val ≤ 122)) = true ↔ _
  rw [Bool.and_eq_true, decide_eq_true_iff, decide_eq_true_iff]
  exact Iff.rfl

theorem isDigit_iff {c : Char} : c.isDigit = true ↔ 48 ≤ c.toNat ∧ c.toNat ≤ 57 := by
  rw [Char.isDigit, Bool.and_eq_true, decide_eq_true_iff, decide_eq_true_iff]
  exact Iff.rfl

theorem isAlpha_iff {c : Char} : c.isAlpha = true ↔ c.isUpper = true ∨ c.isLower = true := by
  show (c.isUpper || c.isLower) = true ↔ _
  rw [Bool.or_eq_true]

theorem isPlain_of_isAlphanum {c : Char} (h : c.isAlphanum = true) : isPlain c = true := by
  simp [isPlain, h]

/-- Signs are told from plain characters. -/
theorem ne_of_isPlain {c sign : Char} (h : isPlain c = true) (hsign : isPlain sign = false) :
    c ≠ sign := by
  rintro rfl
  rw [h] at hsign
  cases hsign

/-- A plain character is no white space. -/
theorem isBlank_of_isPlain {c : Char} (h : isPlain c = true) : isBlank c = false := by
  have hcases : (48 ≤ c.toNat ∧ c.toNat ≤ 57) ∨ (65 ≤ c.toNat ∧ c.toNat ≤ 90) ∨
      (97 ≤ c.toNat ∧ c.toNat ≤ 122) ∨ c.toNat = 95 ∨ c.toNat = 46 ∨ c.toNat = 36 ∨
      c.toNat = 45 ∨ c.toNat = 43 := by
    simp only [isPlain, Char.isAlphanum, Char.isDigit, isAlpha_iff, isUpper_iff, isLower_iff,
      Bool.or_eq_true, Bool.and_eq_true, decide_eq_true_eq, beq_iff_eq] at h
    rcases h with (((((h | h) | rfl) | rfl) | rfl) | rfl) | rfl
    · rcases h with hupper | hlower
      · exact Or.inr (Or.inl hupper)
      · exact Or.inr (Or.inr (Or.inl hlower))
    · exact Or.inl ⟨h.1, h.2⟩
    all_goals decide
  unfold isBlank
  simp only [Bool.or_eq_false_iff, Bool.and_eq_false_iff, decide_eq_false_iff_not,
    beq_eq_false_iff_ne]
  omega

/-! ## Trimming -/

theorem dropWhile_eq_self {p : Char → Bool} {cs : List Char} (h : ∀ c ∈ cs, p c = false) :
    cs.dropWhile p = cs := by
  cases cs with
  | nil => rfl
  | cons c cs => rw [List.dropWhile_cons_of_neg (by simp [h c])]

/-- Skipping to a character skips what does not have it. -/
theorem dropWhile_ne_append {c : Char} {front : List Char} (h : c ∉ front) (behind : List Char) :
    (front ++ c :: behind).dropWhile (· != c) = c :: behind := by
  rw [List.dropWhile_append_of_pos, List.dropWhile_cons_of_neg (by simp)]
  intro d hd
  rw [bne_iff_ne]
  rintro rfl
  exact h hd

theorem takeWhile_ne_append {c : Char} {front : List Char} (h : c ∉ front) (behind : List Char) :
    (front ++ c :: behind).takeWhile (· != c) = front := by
  rw [List.takeWhile_append_of_pos, List.takeWhile_cons_of_neg (by simp), List.append_nil]
  intro d hd
  rw [bne_iff_ne]
  rintro rfl
  exact h hd

/-- What stands between white space is left when the white space is trimmed. -/
theorem trim_pad {front cs behind : List Char} (hfront : ∀ c ∈ front, isBlank c = true)
    (hcs : ∀ c ∈ cs, isBlank c = false) (hbehind : ∀ c ∈ behind, isBlank c = true) :
    trim (front ++ cs ++ behind) = cs := by
  have hback : trimEnd (cs ++ behind) = cs := by
    unfold trimEnd
    rw [List.reverse_append, List.dropWhile_append_of_pos (by simpa using hbehind),
      dropWhile_eq_self (by simpa using hcs), List.reverse_reverse]
  unfold trim trimStart
  rw [List.append_assoc, List.dropWhile_append_of_pos hfront]
  cases cs with
  | nil =>
    -- there is nothing but white space
    rw [List.nil_append, ← List.append_nil behind, List.dropWhile_append_of_pos hbehind]
    rfl
  | cons c cs =>
    rw [List.cons_append, List.dropWhile_cons_of_neg (by simp [hcs c]), ← List.cons_append, hback]

theorem trim_eq_self {cs : List Char} (h : ∀ c ∈ cs, isBlank c = false) : trim cs = cs := by
  have hpad : trim ([] ++ cs ++ []) = cs := trim_pad (by simp) h (by simp)
  rwa [List.nil_append, List.append_nil] at hpad

theorem trimEnd_eq_self {cs : List Char} (h : ∀ c ∈ cs, isBlank c = false) :
    trimEnd cs = cs := by
  unfold trimEnd
  rw [dropWhile_eq_self (by simpa using h), List.reverse_reverse]

/-! ## Endings -/

theorem toLower_eq_self {c : Char} (h : ¬ c.isUpper = true) : c.toLower = c := by
  unfold Char.toLower
  exact dif_neg fun hupper => h (isUpper_iff.mpr hupper)

/-- What is plain in small letters is plain. -/
theorem isPlain_of_toLower {c : Char} (h : isPlain c.toLower = true) : isPlain c = true := by
  by_cases hupper : c.isUpper = true
  · refine isPlain_of_isAlphanum ?_
    rw [Char.isAlphanum, isAlpha_iff.mpr (Or.inl hupper)]
    rfl
  · rwa [toLower_eq_self hupper] at h

/-- Only letters are changed by making letters small. -/
theorem eq_of_toLower_eq {c d : Char} (h : c.toLower = d) (hd : d.isLower = false) : c = d := by
  unfold Char.toLower at h
  split at h
  next hupper =>
    -- a small letter comes out, which `d` is not
    exfalso
    have hlow : 65 ≤ c.val.toNat := hupper.1
    have hhigh : c.val.toNat ≤ 90 := hupper.2
    have hval : d.val.toNat = c.val.toNat + 32 := by
      rw [← h]
      show (c.val + 32).toNat = _
      rw [UInt32.toNat_add]
      exact Nat.mod_eq_of_lt (show c.val.toNat + 32 < 2 ^ 32 by omega)
    have hletter : 97 ≤ d.val.toNat ∧ d.val.toNat ≤ 122 := by omega
    rw [isLower_iff.mpr hletter] at hd
    cases hd
  next => exact h

theorem length_eq_of_sameLetters {xs ys : List Char} (h : sameLetters xs ys = true) :
    xs.length = ys.length := by
  have hmap := congrArg List.length (beq_iff_eq.mp h)
  rwa [List.length_map, List.length_map] at hmap

/-- An ending is found where one was put. -/
theorem dropEnding?_append {ending written body : List Char} (hbody : body ≠ [])
    (h : sameLetters written ending = true) : dropEnding? ending (body ++ written) = some body := by
  have hkeep : (body ++ written).length - ending.length = body.length := by
    rw [List.length_append, length_eq_of_sameLetters h]
    omega
  have hpos : 0 < body.length := List.length_pos_iff.mpr hbody
  unfold dropEnding?
  simp only [hkeep, List.drop_left, List.take_left, h, hpos, decide_true, Bool.and_self, if_true]

/-- An ending with another last letter is not found. -/
theorem dropEnding?_append_eq_none {ending written : List Char} (body : List Char)
    (hwritten : written ≠ []) (hending : ending ≠ [])
    (h : written.getLast?.map Char.toLower ≠ ending.getLast?.map Char.toLower) :
    dropEnding? ending (body ++ written) = none := by
  have hlast : (body ++ written).getLast? = written.getLast? := by
    rw [List.getLast?_append, List.getLast?_eq_some_getLast hwritten, Option.some_or]
  unfold dropEnding?
  refine if_neg ?_
  rw [Bool.and_eq_true]
  rintro ⟨-, hsame⟩
  -- the text that is cut off would have the last letter of both
  have hmap := congrArg List.getLast? (beq_iff_eq.mp hsame)
  have hlength := length_eq_of_sameLetters hsame
  have hpos : 0 < ending.length := List.length_pos_iff.mpr hending
  rw [List.length_drop] at hlength
  rw [List.getLast?_map, List.getLast?_map, List.getLast?_drop, if_neg (by omega), hlast] at hmap
  exact h hmap

/-- A text without a dot has no ending that begins with one. -/
theorem dropEnding?_eq_none_of_dot {ending cs : List Char} (h : '.' ∉ cs) :
    dropEnding? ('.' :: ending) cs = none := by
  unfold dropEnding?
  refine if_neg ?_
  rw [Bool.and_eq_true]
  rintro ⟨-, hsame⟩
  have hmem : '.' ∈ (cs.drop (cs.length - ('.' :: ending).length)).map Char.toLower := by
    rw [beq_iff_eq.mp hsame]
    exact List.mem_cons_self
  obtain ⟨c, hc, hlower⟩ := List.mem_map.mp hmem
  exact h (eq_of_toLower_eq hlower (by decide) ▸ List.mem_of_mem_drop hc)

end Stm8.Text
