import Stm8.Instruction.Printer
import Stm8.Operand.Parser
import Stm8.Proofs.Text.Digits

/-!
# Texts that stand for a value

Operands put brackets, commas and endings around the text of a value. A text is read
as the same value in all of them (`Value.IsSpelledBy`) if it is plain, is no register
and does not itself end like a marked value. Numbers are such texts:

> `isSpelledBy_hex`, `isSpelledBy_signedHex`, `isSpelledBy_displacement`

and so are names that can be told from all that (`IsReferable`), with or without an
addend:

> `isSpelledBy_name`, `isSpelledBy_reference`
-/

namespace Stm8

open Stm8.Text

/-- The endings that a value in an operand can have. -/
def Operand.endings : List (List Char) :=
  [".short".toList, ".s".toList, ".w".toList, ".e".toList]

/-- The text is read as this value wherever an operand has one. -/
structure Value.IsSpelledBy (v : Value) (body : List Char) : Prop where
  /-- It has no white space and no brackets. -/
  plain : ∀ c ∈ body, isPlain c = true
  /-- It denotes the value. -/
  value : Value.parse? body = some v
  /-- The value is not marked as lying in page zero. -/
  unmarked : v.markShort false = v
  /-- It does not end like a marked value. -/
  noEnding : ∀ ending ∈ Operand.endings, dropEnding? ending body = none
  /-- It is no register. -/
  noRegister : Register.named? body = none

/-- A name that can be told from numbers, from registers and from marked values. -/
structure IsReferable (name : String) : Prop where
  /-- It is a name. -/
  symbol : isSymbolName name.toList = true
  /-- It is no number. -/
  noNumber : Number.parse? name.toList = none
  /-- It is no register. -/
  noRegister : Register.named? name.toList = none
  /-- It does not end like a marked value. -/
  noEnding : ∀ ending ∈ Operand.endings, dropEnding? ending name.toList = none

/-! ## Registers -/

/-- Registers have names of letters. -/
theorem named?_eq_none {cs : List Char} {c : Char} (hc : c ∈ cs) (hletter : c.isAlpha = false) :
    Register.named? cs = none := by
  have hnames : ∀ r ∈ Register.all, ∀ d ∈ r.name.toList, d.isAlpha = true := by decide
  have hneither : ¬(c.isUpper = true ∨ c.isLower = true) := by
    rw [← isAlpha_iff, hletter]
    exact Bool.false_ne_true
  unfold Register.named?
  rw [List.find?_eq_none]
  intro r hr hsame
  have hmem : c.toLower ∈ r.name.toList.map Char.toLower := by
    rw [beq_iff_eq.mp hsame]
    exact List.mem_map_of_mem hc
  obtain ⟨d, hd, hlower⟩ := List.mem_map.mp hmem
  have hkeep : c.toLower = c := toLower_eq_self fun hupper => hneither (Or.inl hupper)
  have hdc : d = c := eq_of_toLower_eq (hlower.trans hkeep)
    (Bool.eq_false_iff.mpr fun hlow => hneither (Or.inr hlow))
  have halpha := hnames r hr d hd
  rw [hdc, hletter] at halpha
  cases halpha

/-! ## Numbers -/

/-- A number is a value. -/
theorem Value.parse?_of_number {cs : List Char} {n : Int} (hplain : ∀ c ∈ cs, isPlain c = true)
    (h : Number.parse? cs = some n) : Value.parse? cs = some (.const n) := by
  have htrim : trim cs = cs := trim_eq_self fun c hc => isBlank_of_isPlain (hplain c hc)
  unfold Value.parse?
  simp only [htrim]
  cases cs with
  | nil => cases h
  | cons c cs => simp only [h]

/-- A number with a zero and without a dot. -/
theorem Value.isSpelledBy_of_number {cs : List Char} {n : Int}
    (hplain : ∀ c ∈ cs, isPlain c = true) (h : Number.parse? cs = some n) (hzero : '0' ∈ cs)
    (hdot : '.' ∉ cs) : (Value.const n).IsSpelledBy cs where
  plain := hplain
  value := Value.parse?_of_number hplain h
  unmarked := rfl
  noEnding := by
    intro ending hending
    simp only [Operand.endings, List.mem_cons, List.not_mem_nil, or_false] at hending
    rcases hending with rfl | rfl | rfl | rfl <;> exact dropEnding?_eq_none_of_dot hdot
  noRegister := named?_eq_none hzero rfl

theorem dot_not_mem_hex {least n : Nat} : '.' ∉ ("0x" ++ hex least n).toList := by
  intro hmem
  rw [String.toList_append, List.mem_append] at hmem
  rcases hmem with hmem | hmem
  · revert hmem
    decide
  · cases Number.isAlphanum_of_mem_hex hmem

theorem zero_mem_hex {least n : Nat} : '0' ∈ ("0x" ++ hex least n).toList := by
  rw [String.toList_append, List.mem_append]
  exact Or.inl (by decide)

/-- A field in hexadecimal stands for its number. -/
theorem isSpelledBy_hex {n : Nat} (hn : (n : Int) ≤ Quantity.greatest) (least : Nat) :
    (Value.const n).IsSpelledBy ("0x" ++ hex least n).toList :=
  Value.isSpelledBy_of_number (fun _ hc => Number.isPlain_of_mem_hex hc)
    (Number.parse?_hex hn least) zero_mem_hex dot_not_mem_hex

/-- A number in hexadecimal, after a minus sign if it is negative, stands for itself. -/
theorem isSpelledBy_signedHex {v : Int} (hv : v.natAbs ≤ Quantity.greatest) (least : Nat) :
    (Value.const v).IsSpelledBy ((if v < 0 then "-0x" else "0x") ++ hex least v.natAbs).toList := by
  by_cases hneg : v < 0
  · have htext : ((if v < 0 then "-0x" else "0x") ++ hex least v.natAbs).toList =
        '-' :: ("0x" ++ hex least v.natAbs).toList := by
      rw [if_pos hneg, String.toList_append, String.toList_append]
      rfl
    have hnumber := Number.parse?_neg_hex hv least
    rw [show -(v.natAbs : Int) = v by omega] at hnumber
    rw [htext]
    refine Value.isSpelledBy_of_number ?_ hnumber (List.mem_cons_of_mem _ zero_mem_hex) ?_
    · rw [List.forall_mem_cons]
      exact ⟨rfl, fun _ hc => Number.isPlain_of_mem_hex hc⟩
    · intro hmem
      rcases List.mem_cons.mp hmem with hsign | hmem
      · cases hsign
      · exact dot_not_mem_hex hmem
  · have hspelled := isSpelledBy_hex hv least
    rw [show ((v.natAbs : Nat) : Int) = v by omega] at hspelled
    rw [if_neg hneg]
    exact hspelled

/-- A displacement stands for its number. -/
theorem isSpelledBy_displacement {d : Int} (hd : d.natAbs ≤ Quantity.greatest) :
    (Value.const d).IsSpelledBy (displacementText d).toList :=
  isSpelledBy_signedHex hd 2

/-- A bit number is read as it is. -/
theorem parse?_bit (n : Fin 8) : Value.parse? (decimal n.val).toList = some (.const n.val) := by
  revert n
  decide

/-! ## Names -/

/-- Names consist of plain characters other than the signs of a sum. -/
theorem isPlain_of_isSymbolName {cs : List Char} (h : isSymbolName cs = true) {c : Char}
    (hc : c ∈ cs) : isPlain c = true ∧ c ≠ '+' ∧ c ≠ '-' := by
  have hkind : c.isAlphanum = true ∨ c = '_' ∨ c = '.' ∨ c = '$' := by
    cases cs with
    | nil => cases hc
    | cons d ds =>
      simp only [isSymbolName, Bool.and_eq_true, List.all_eq_true, Bool.or_eq_true,
        beq_iff_eq] at h
      rcases List.mem_cons.mp hc with rfl | hc
      · rcases h.1 with (hfirst | hfirst) | hfirst
        · exact Or.inl (by simp [Char.isAlphanum, hfirst])
        · exact Or.inr (Or.inl hfirst)
        · exact Or.inr (Or.inr (Or.inl hfirst))
      · rcases h.2 c hc with ((hrest | hrest) | hrest) | hrest
        · exact Or.inl hrest
        · exact Or.inr (Or.inl hrest)
        · exact Or.inr (Or.inr (Or.inl hrest))
        · exact Or.inr (Or.inr (Or.inr hrest))
  rcases hkind with hletter | rfl | rfl | rfl
  · refine ⟨isPlain_of_isAlphanum hletter, ?_, ?_⟩ <;>
    · rintro rfl
      cases hletter
  all_goals decide

theorem ne_nil_of_isSymbolName {cs : List Char} (h : isSymbolName cs = true) : cs ≠ [] := by
  rintro rfl
  cases h

/-- A text without signs is a single term. -/
theorem Value.cutAtSigns_eq_self {cs : List Char} (h : ∀ c ∈ cs, c ≠ '+' ∧ c ≠ '-') :
    cutAtSigns cs = (cs, []) := by
  induction cs with
  | nil => rfl
  | cons c cs ih =>
    rw [List.forall_mem_cons] at h
    rw [cutAtSigns, ih h.2]
    simp [h.1]

/-- Text that is no number is read as a sum. -/
theorem Value.parse?_of_terms {cs : List Char} (hplain : ∀ c ∈ cs, isPlain c = true)
    (hne : cs ≠ []) (hnumber : Number.parse? cs = none) :
    Value.parse? cs = ((terms cs).foldlM Sum.add? {}).map Sum.value := by
  unfold parse?
  rw [trim_eq_self fun c hc => isBlank_of_isPlain (hplain c hc)]
  cases cs with
  | nil => exact absurd rfl hne
  | cons c cs => simp only [hnumber]

/-- A name that is no number is a term. -/
theorem Value.Sum.add?_name {name : String} (hsymbol : isSymbolName name.toList = true)
    (hnumber : Number.parse? name.toList = none) :
    Sum.add? {} ⟨false, name.toList⟩ = some { symbol := some name } := by
  have htrim : trim name.toList = name.toList :=
    trim_eq_self fun c hc => isBlank_of_isPlain (isPlain_of_isSymbolName hsymbol hc).1
  unfold Sum.add?
  simp only [htrim, hnumber, hsymbol]
  simp

/-- A name that is no number is a value. -/
theorem Value.parse?_of_name {name : String} (hsymbol : isSymbolName name.toList = true)
    (hnumber : Number.parse? name.toList = none) :
    Value.parse? name.toList = some (.ofName name) := by
  have hsigns : ∀ c ∈ name.toList, c ≠ '+' ∧ c ≠ '-' := fun c hc =>
    (isPlain_of_isSymbolName hsymbol hc).2
  -- there is one term, the whole name
  have hterms : terms name.toList = [⟨false, name.toList⟩] := by
    cases hname : name.toList with
    | nil => rfl
    | cons c cs =>
      rw [hname, List.forall_mem_cons] at hsigns
      rw [terms, cutAtSigns_eq_self hsigns.2]
  rw [parse?_of_terms (fun c hc => (isPlain_of_isSymbolName hsymbol hc).1)
    (ne_nil_of_isSymbolName hsymbol) hnumber, hterms, List.foldlM_cons,
    Sum.add?_name hsymbol hnumber]
  rfl

/-- A name stands for its symbol. -/
theorem isSpelledBy_name {name : String} (h : IsReferable name) :
    (Value.ofName name).IsSpelledBy name.toList where
  plain := fun _ hc => (isPlain_of_isSymbolName h.symbol hc).1
  value := Value.parse?_of_name h.symbol h.noNumber
  unmarked := rfl
  noEnding := h.noEnding
  noRegister := h.noRegister

/-! ## Sums -/

/-- What stands between two signs is a term. -/
theorem Value.cutAtSigns_append {cs : List Char} (h : ∀ c ∈ cs, c ≠ '+' ∧ c ≠ '-') {sign : Char}
    (hsign : sign = '+' ∨ sign = '-') {behind head : List Char} {rest : List Term}
    (hbehind : cutAtSigns behind = (head, rest)) :
    cutAtSigns (cs ++ sign :: behind) = (cs, ⟨sign == '-', head⟩ :: rest) := by
  induction cs with
  | nil =>
    rw [List.nil_append, cutAtSigns, hbehind]
    rcases hsign with rfl | rfl <;> rfl
  | cons c cs ih =>
    rw [List.forall_mem_cons] at h
    rw [List.cons_append, cutAtSigns, ih h.2]
    simp [h.1]

section

variable {name : String} {n : Nat} {sign : Char}

/-- The characters of a name with a number behind a sign. -/
theorem isPlain_of_mem_sum (hsymbol : isSymbolName name.toList = true)
    (hsign : sign = '+' ∨ sign = '-') :
    ∀ c ∈ name.toList ++ sign :: Nat.toDigits 10 n, isPlain c = true := by
  rw [List.forall_mem_append, List.forall_mem_cons]
  refine ⟨fun c hc => (isPlain_of_isSymbolName hsymbol hc).1, ?_, fun c hc => ?_⟩
  · rcases hsign with rfl | rfl <;> rfl
  · exact Number.isPlain_of_mem_toDigits hc

/-- A sum is no number, because there is a sign behind its first character. -/
theorem number?_of_sum (hsymbol : isSymbolName name.toList = true)
    (hsign : sign = '+' ∨ sign = '-') :
    Number.parse? (name.toList ++ sign :: Nat.toDigits 10 n) = none := by
  obtain ⟨c, cs, hname⟩ := List.exists_cons_of_ne_nil (ne_nil_of_isSymbolName hsymbol)
  have hblank : ∀ d ∈ name.toList ++ sign :: Nat.toDigits 10 n, isBlank d = false := fun d hd =>
    isBlank_of_isPlain (isPlain_of_mem_sum hsymbol hsign d hd)
  have hc := (isPlain_of_isSymbolName hsymbol (c := c) (by rw [hname]; exact List.mem_cons_self)).2
  rw [hname, List.cons_append] at hblank ⊢
  exact Number.parse?_eq_none hblank hc.2 hsign (by simp)

/-- The terms of a sum are the name and the number. -/
theorem Value.terms_of_sum (hsymbol : isSymbolName name.toList = true)
    (hsign : sign = '+' ∨ sign = '-') :
    terms (name.toList ++ sign :: Nat.toDigits 10 n) =
      [⟨false, name.toList⟩, ⟨sign == '-', Nat.toDigits 10 n⟩] := by
  have hdigits : ∀ c ∈ Nat.toDigits 10 n, c ≠ '+' ∧ c ≠ '-' := by
    intro c hc
    have hdigit : c.isDigit = true := Nat.isDigit_of_mem_toDigits (by decide) (by decide) hc
    constructor <;>
    · rintro rfl
      cases hdigit
  obtain ⟨c, cs, hname⟩ := List.exists_cons_of_ne_nil (ne_nil_of_isSymbolName hsymbol)
  have hsigns : ∀ d ∈ cs, d ≠ '+' ∧ d ≠ '-' := fun d hd =>
    (isPlain_of_isSymbolName hsymbol (by rw [hname]; exact List.mem_cons_of_mem c hd)).2
  rw [hname, List.cons_append, terms,
    cutAtSigns_append hsigns hsign (cutAtSigns_eq_self hdigits)]

/-- A number behind a sign is a term that is added or subtracted. -/
theorem Value.Sum.add?_number (symbol : Option String) (hn : (n : Int) ≤ Quantity.greatest)
    (hsign : sign = '+' ∨ sign = '-') :
    Sum.add? { symbol } ⟨sign == '-', Nat.toDigits 10 n⟩ =
      some { symbol, addend := if sign = '-' then -n else n } := by
  have htrim : trim (Nat.toDigits 10 n) = Nat.toDigits 10 n :=
    trim_eq_self fun c hc => isBlank_of_isPlain (Number.isPlain_of_mem_toDigits hc)
  have hfits : Quantity.fits (if sign = '-' then -n else n) = true := by
    unfold Quantity.fits Quantity.least
    unfold Quantity.greatest at hn ⊢
    split <;> simp <;> omega
  unfold Sum.add?
  rcases hsign with rfl | rfl <;> simpa [htrim, Number.parse?_toDigits hn] using hfits

/-- A name with a number behind a sign is a sum. -/
theorem Value.parse?_of_sum (hsymbol : isSymbolName name.toList = true)
    (hnumber : Number.parse? name.toList = none) (hn : (n : Int) ≤ Quantity.greatest)
    (hsign : sign = '+' ∨ sign = '-') :
    Value.parse? (name.toList ++ sign :: Nat.toDigits 10 n) =
      some (.symbol { name, addend := if sign = '-' then -n else n }) := by
  rw [parse?_of_terms (isPlain_of_mem_sum hsymbol hsign) (by simp) (number?_of_sum hsymbol hsign),
    terms_of_sum hsymbol hsign, List.foldlM_cons, Sum.add?_name hsymbol hnumber]
  show ([_].foldlM Sum.add? _).map Sum.value = _
  rw [List.foldlM_cons, Sum.add?_number (some name) hn hsign]
  rfl

end

/-- The text of a reference consists of the name and the addend behind its sign. -/
theorem SymbolRef.exists_sign {r : SymbolRef} (h : r.addend ≠ 0) :
    ∃ sign, (sign = '+' ∨ sign = '-') ∧
      r.text.toList = r.name.toList ++ sign :: Nat.toDigits 10 r.addend.natAbs ∧
      (if sign = '-' then -(r.addend.natAbs : Int) else r.addend.natAbs) = r.addend := by
  unfold SymbolRef.text decimal
  by_cases hneg : r.addend < 0
  · refine ⟨'-', Or.inr rfl, ?_, by rw [if_pos rfl]; omega⟩
    simp [h, hneg, Int.not_lt.mpr (Int.le_of_lt hneg)]
  · have hpos : 0 < r.addend := by omega
    refine ⟨'+', Or.inl rfl, ?_, by rw [if_neg (by decide)]; omega⟩
    simp [h, hneg, hpos]

/-- The text of a reference is read as the reference. -/
theorem SymbolRef.parse?_text {r : SymbolRef} (hsymbol : isSymbolName r.name.toList = true)
    (hnumber : Number.parse? r.name.toList = none) (haddend : r.addend.natAbs ≤ Quantity.greatest)
    (hshort : r.short = false) : Value.parse? r.text.toList = some (.symbol r) := by
  obtain ⟨name, addend, short⟩ := r
  obtain rfl : short = false := hshort
  by_cases hzero : addend = 0
  · subst hzero
    exact Value.parse?_of_name hsymbol hnumber
  · obtain ⟨sign, hsign, htext, hsum⟩ := exists_sign (r := ⟨name, addend, false⟩) hzero
    rw [htext, Value.parse?_of_sum hsymbol hnumber haddend hsign, hsum]

/-- A text that ends in a digit does not end like a marked value. -/
theorem dropEnding?_of_digits (front : List Char) (n : Nat) :
    ∀ ending ∈ Operand.endings, dropEnding? ending (front ++ Nat.toDigits 10 n) = none := by
  have hletters : ∀ d < 10, ∀ ending ∈ Operand.endings, ending ≠ [] ∧
      some (Nat.digitChar d).toLower ≠ ending.getLast?.map Char.toLower := by decide
  intro ending hending
  have hne : Nat.toDigits 10 n ≠ [] := Nat.toDigits_ne_nil
  obtain ⟨d, hd, hlast⟩ := exists_of_mem_toDigits (by decide) n _ (List.getLast_mem hne)
  obtain ⟨hnonempty, hletter⟩ := hletters d hd ending hending
  refine dropEnding?_append_eq_none front hne hnonempty ?_
  rw [List.getLast?_eq_some_getLast hne, hlast]
  exact hletter

/-- The text of a reference stands for the symbol with the addend. -/
theorem isSpelledBy_reference {r : SymbolRef} (h : IsReferable r.name)
    (haddend : r.addend.natAbs ≤ Quantity.greatest) (hshort : r.short = false) :
    (Value.symbol r).IsSpelledBy r.text.toList := by
  have hvalue := r.parse?_text h.symbol h.noNumber haddend hshort
  by_cases hzero : r.addend = 0
  · have htext : r.text = r.name := by rw [SymbolRef.text, if_pos hzero]
    rw [htext] at hvalue ⊢
    exact { isSpelledBy_name h with value := hvalue, unmarked := by rw [Value.markShort, ← hshort] }
  · obtain ⟨sign, hsign, htext, -⟩ := r.exists_sign hzero
    rw [htext] at hvalue ⊢
    refine ⟨isPlain_of_mem_sum h.symbol hsign, hvalue, by rw [Value.markShort, ← hshort], ?_, ?_⟩
    · rw [List.append_cons]
      exact dropEnding?_of_digits _ _
    · refine named?_eq_none (List.mem_append_right _ List.mem_cons_self) ?_
      rcases hsign with rfl | rfl <;> rfl

end Stm8
