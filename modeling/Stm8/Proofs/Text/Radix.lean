import Mathlib.Data.Nat.Digits.Defs
import Stm8.Proofs.Text.Digits

/-!
# Digits in any radix

What a number in a radix looks like: its digits are those of the core library, with letters
of either case (`IsDigit`), and underscores may stand anywhere among them (`IsDigits`). The
readers drop the underscores and find the positional value of the digits:

> `digit?_eq_some_iff`: a digit is read as its value, and no other character is.
> `readDigits?_filter_eq_some_iff`: digits are read as their positional value, and no other
> text is read.
> `exists_isDigits_of_spelling`: every number has its digits, whatever their case and however
> many zeros and underscores there are.
-/

namespace Stm8.Text

/-- Whether the character is the digit `d` of the radix, in either case. -/
def IsDigit (radix : Nat) (c : Char) (d : Nat) : Prop :=
  d < radix ∧ c.toLower = Nat.digitChar d

/-- Whether the text has these digits and underscores anywhere among them. -/
inductive IsDigits (radix : Nat) : List Char → List Nat → Prop where
  | nil : IsDigits radix [] []
  | underscore {cs : List Char} {ds : List Nat} :
      IsDigits radix cs ds → IsDigits radix ('_' :: cs) ds
  | digit {c : Char} {d : Nat} {cs : List Char} {ds : List Nat} :
      IsDigit radix c d → IsDigits radix cs ds → IsDigits radix (c :: cs) (d :: ds)

/-! ## One digit -/

theorem toNat_toLower {c : Char} (h : c.isUpper = true) : c.toLower.toNat = c.toNat + 32 := by
  have hrange := isUpper_iff.mp h
  have hhigh : c.val.toNat ≤ 90 := hrange.2
  have hlower : c.toLower.val = c.val + 32 := by
    unfold Char.toLower
    split
    · rfl
    · next hother => exact absurd hrange hother
  show c.toLower.val.toNat = c.val.toNat + 32
  rw [hlower, UInt32.toNat_add]
  exact Nat.mod_eq_of_lt (show c.val.toNat + 32 < 2 ^ 32 by omega)

theorem toNat_digitChar :
    ∀ d < 16, (Nat.digitChar d).toNat = if d < 10 then 48 + d else 87 + d := by
  decide

/-- The characters of a digit. -/
theorem isDigit_iff_toNat {radix : Nat} (hradix : radix ≤ 16) {c : Char} {d : Nat} :
    IsDigit radix c d ↔ d < radix ∧ ((d < 10 ∧ c.toNat = 48 + d) ∨
      (10 ≤ d ∧ (c.toNat = 87 + d ∨ c.toNat = 55 + d))) := by
  refine and_congr_right fun hd => ?_
  rw [← Char.toNat_inj, toNat_digitChar d (by omega)]
  by_cases hupper : c.isUpper = true
  · have hrange := isUpper_iff.mp hupper
    rw [toNat_toLower hupper]
    split <;> omega
  · rw [isUpper_iff] at hupper
    rw [toLower_eq_self (fun h => hupper (isUpper_iff.mp h))]
    split <;> omega

/-- **A digit is read as its value**, and no other character is. -/
theorem digit?_eq_some_iff {radix : Nat} (hradix : radix ≤ 16) {c : Char} {d : Nat} :
    digit? radix c = some d ↔ IsDigit radix c d := by
  rw [isDigit_iff_toNat hradix]
  unfold digit?
  rw [Option.filter_eq_some_iff, decide_eq_true_iff, and_comm]
  refine and_congr_right fun hd => ?_
  simp only [isDigit_iff, isLower_iff, isUpper_iff]
  split
  · rw [Option.some.injEq]
    omega
  · split
    · rw [Option.some.injEq]
      omega
    · split
      · rw [Option.some.injEq]
        omega
      · simp only [reduceCtorEq, false_iff]
        omega

/-- Digits are decimal digits and letters. -/
theorem IsDigit.isAlphanum {radix : Nat} (hradix : radix ≤ 16) {c : Char} {d : Nat}
    (h : IsDigit radix c d) : c.isAlphanum = true := by
  have hcases := (isDigit_iff_toNat hradix).mp h
  rw [Char.isAlphanum, Bool.or_eq_true, isAlpha_iff, isUpper_iff, isLower_iff, isDigit_iff]
  omega

/-- A digit is one of every greater radix. -/
theorem IsDigit.mono {radix radix' : Nat} (h : radix ≤ radix') {c : Char} {d : Nat}
    (hdigit : IsDigit radix c d) : IsDigit radix' c d :=
  ⟨Nat.lt_of_lt_of_le hdigit.1 h, hdigit.2⟩

theorem IsDigit.ne_underscore {radix : Nat} (hradix : radix ≤ 16) {c : Char} {d : Nat}
    (h : IsDigit radix c d) : c ≠ '_' := by
  rintro rfl
  cases h.isAlphanum hradix

/-! ## Runs of digits -/

/-- The value of digits from the last one on. -/
theorem positional_reverse (radix : Nat) (ds : List Nat) :
    positional radix ds.reverse = Nat.ofDigits radix ds := by
  induction ds with
  | nil => rfl
  | cons d ds ih =>
    rw [List.reverse_cons, positional_concat, ih, Nat.ofDigits_cons, Nat.add_comm]

theorem filter_cons_of_ne {c : Char} (h : c ≠ '_') (cs : List Char) :
    (c :: cs).filter (· != '_') = c :: cs.filter (· != '_') :=
  List.filter_cons_of_pos (bne_iff_ne.mpr h)

/-- The digits are what is left without the underscores. -/
theorem mapM_filter_eq_some_iff {radix : Nat} (hradix : radix ≤ 16) {cs : List Char}
    {ds : List Nat} :
    (cs.filter (· != '_')).mapM (digit? radix) = some ds ↔ IsDigits radix cs ds := by
  constructor
  · intro h
    induction cs generalizing ds with
    | nil =>
      obtain rfl := Option.some.inj h
      exact .nil
    | cons c cs ih =>
      by_cases hscore : c = '_'
      · subst hscore
        exact .underscore (ih h)
      · rw [filter_cons_of_ne hscore, List.mapM_cons] at h
        obtain ⟨d, hd, h⟩ := Option.bind_eq_some_iff.mp h
        obtain ⟨rest, hrest, h⟩ := Option.bind_eq_some_iff.mp h
        obtain rfl := Option.some.inj h
        exact .digit ((digit?_eq_some_iff hradix).mp hd) (ih hrest)
  · intro h
    induction h with
    | nil => rfl
    | underscore _ ih => exact ih
    | digit hdigit _ ih =>
      rw [filter_cons_of_ne (hdigit.ne_underscore hradix), List.mapM_cons,
        (digit?_eq_some_iff hradix).mpr hdigit, ih]
      rfl

/-- **Digits are read as their positional value**, and no other text is read. -/
theorem readDigits?_filter_eq_some_iff {radix : Nat} (hradix : radix ≤ 16) {cs : List Char}
    {n : Nat} :
    readDigits? radix (cs.filter (· != '_')) = some n ↔
      ∃ ds, IsDigits radix cs ds ∧ ds ≠ [] ∧ Nat.ofDigits radix ds.reverse = n := by
  simp only [← mapM_filter_eq_some_iff hradix, ← positional_reverse, List.reverse_reverse]
  unfold readDigits?
  cases cs.filter (· != '_') with
  | nil => simp
  | cons c rest =>
    rw [List.isEmpty_cons, if_neg Bool.false_ne_true, Option.map_eq_some_iff]
    refine exists_congr fun ds => and_congr_right fun hds => ?_
    rw [and_iff_right]
    rintro rfl
    rw [List.mapM_cons] at hds
    obtain ⟨d, -, hds⟩ := Option.bind_eq_some_iff.mp hds
    obtain ⟨others, -, hds⟩ := Option.bind_eq_some_iff.mp hds
    cases hds

/-- The digits of a number are its digits in any case, with any underscores among them. -/
theorem IsDigits.of_map {radix : Nat} {cs : List Char} {ds : List Nat}
    (hcs : (cs.filter (· != '_')).map Char.toLower = ds.map Nat.digitChar)
    (hds : ∀ d ∈ ds, d < radix) : IsDigits radix cs ds := by
  induction cs generalizing ds with
  | nil =>
    obtain rfl := List.map_eq_nil_iff.mp hcs.symm
    exact .nil
  | cons c cs ih =>
    by_cases hscore : c = '_'
    · subst hscore
      exact .underscore (ih hcs hds)
    · rw [filter_cons_of_ne hscore, List.map_cons] at hcs
      cases ds with
      | nil => cases hcs
      | cons d ds =>
        obtain ⟨hc, hrest⟩ := List.cons.inj hcs
        rw [List.forall_mem_cons] at hds
        exact .digit ⟨hds.1, hc⟩ (ih hrest hds.2)

/-- Every number has its digits, whatever their case and however many zeros and underscores
there are. -/
theorem exists_isDigits_of_spelling {radix : Nat} (hradix : 1 < radix) {zeros n : Nat}
    {cs : List Char} (h : (cs.filter (· != '_')).map Char.toLower =
      List.replicate zeros '0' ++ Nat.toDigits radix n) :
    ∃ ds, IsDigits radix cs ds ∧ ds ≠ [] ∧ Nat.ofDigits radix ds.reverse = n := by
  obtain ⟨ds, hds, htext, hvalue⟩ := exists_toDigits hradix n
  have hne : ds ≠ [] := by
    rintro rfl
    exact Nat.toDigits_ne_nil htext
  refine ⟨List.replicate zeros 0 ++ ds, .of_map ?_ ?_, ?_, ?_⟩
  · rw [h, htext, List.map_append, List.map_replicate]
    rfl
  · refine List.forall_mem_append.mpr ⟨fun d hd => ?_, hds⟩
    rw [(List.mem_replicate.mp hd).2]
    omega
  · exact List.append_ne_nil_of_right_ne_nil _ hne
  · rw [← positional_reverse, List.reverse_reverse, positional_replicate_zero, hvalue]

/-- So has it the digits that the core library writes. -/
theorem exists_isDigits_toDigits {radix : Nat} (hradix : 1 < radix) (hradix' : radix ≤ 16)
    (n : Nat) : ∃ ds, IsDigits radix (Nat.toDigits radix n) ds ∧
      ds.length = (Nat.toDigits radix n).length ∧ Nat.ofDigits radix ds.reverse = n := by
  obtain ⟨ds, hds, htext, hvalue⟩ := exists_toDigits hradix n
  refine ⟨ds, ?_, by rw [htext, List.length_map], ?_⟩
  · rw [htext]
    clear htext hvalue
    induction ds with
    | nil => exact .nil
    | cons d ds ih =>
      rw [List.forall_mem_cons] at hds
      exact .digit ((digit?_eq_some_iff hradix').mp (digit?_digitChar hds.1 hradix')) (ih hds.2)
  · rw [← positional_reverse, List.reverse_reverse, hvalue]

/-- There are only digits and underscores. -/
theorem IsDigits.forall_mem {radix : Nat} {cs : List Char} {ds : List Nat}
    (h : IsDigits radix cs ds) : ∀ c ∈ cs, c = '_' ∨ ∃ d, IsDigit radix c d := by
  induction h with
  | nil => simp
  | underscore _ ih => exact List.forall_mem_cons.mpr ⟨Or.inl rfl, ih⟩
  | digit hdigit _ ih => exact List.forall_mem_cons.mpr ⟨Or.inr ⟨_, hdigit⟩, ih⟩

/-- Without the underscores there are as many characters as digits. -/
theorem IsDigits.length_filter {radix : Nat} (hradix : radix ≤ 16) {cs : List Char}
    {ds : List Nat} (h : IsDigits radix cs ds) :
    (cs.filter (· != '_')).length = ds.length := by
  induction h with
  | nil => rfl
  | underscore _ ih => exact ih
  | digit hdigit _ ih =>
    rw [filter_cons_of_ne (hdigit.ne_underscore hradix), List.length_cons, ih, List.length_cons]

end Stm8.Text
