import Mathlib.Algebra.Ring.Int.Defs
import Mathlib.Data.List.Forall2
import Stm8.Proofs.Number.Grammar
import Stm8.Proofs.Operand.Bounds
import Stm8.Proofs.Value.Spelling

/-!
# The grammar of values

What a value looks like: terms with signs between them and white space around them, each a
number without a sign or the name of a symbol; in front of the first there may be a minus
sign if it is a number (`IsSum`). A number is a sum of one term, so reading a value is
reading its terms one after another (`parse?_eq`). A term is read as it is meant
(`Sum.plus?`), and what has been read so far decides whether the next one is accepted
(`plus?_eq_some_iff`):

> `value_grammar`: a sum is read exactly if at most one term is a symbol, that one is not
> subtracted, and all partial sums are quantities. No other text is read. The text of a value
> is read as the value.
-/

namespace Stm8

open Stm8.Text

/-! ## Signs in numbers -/

theorem Text.ne_sign_of_isBlank {c : Char} (h : isBlank c = true) : c ≠ '+' ∧ c ≠ '-' := by
  constructor <;>
  · rintro rfl
    cases h

namespace Number

theorem noSigns_of_magnitude? {cs : List Char} {n : Nat} (h : magnitude? (trim cs) = some n) :
    ∀ c ∈ cs, c ≠ '+' ∧ c ≠ '-' := by
  obtain ⟨front, behind, hfront, hbehind, hcs⟩ := isPadded_trim cs
  have hsolid := (magnitude?_eq_some_iff.mp h).1.solid
  rw [hcs]
  simp only [List.forall_mem_append]
  exact ⟨⟨fun c hc => ne_sign_of_isBlank (hfront c hc), fun c hc => (hsolid c hc).2⟩,
    fun c hc => ne_sign_of_isBlank (hbehind c hc)⟩

/-- Only the first character of a number can be a sign. -/
theorem noSigns_of_parse? {c : Char} {cs : List Char} {v : Int} (hc : isBlank c = false)
    (h : parse? (c :: cs) = some v) : ∀ d ∈ cs, d ≠ '+' ∧ d ≠ '-' := by
  by_cases hminus : c = '-'
  · subst hminus
    obtain ⟨n, hn, -⟩ := parse?_minus_eq_some_iff.mp h
    exact noSigns_of_magnitude? hn
  · have hsign : (trim (c :: cs)).head? ≠ some '-' := by
      rw [trim_cons hc]
      exact fun hhead => hminus (Option.some.inj hhead)
    obtain ⟨n, hn, -⟩ := (parse?_eq_some_iff hsign).mp h
    exact fun d hd => noSigns_of_magnitude? hn d (List.mem_cons_of_mem c hd)

end Number

namespace Value

/-! ## The grammar -/

/-- What a term without its sign stands for. -/
inductive Atom where
  /-- A number. -/
  | number (n : Int)
  /-- A symbol. -/
  | symbol (name : String)
  deriving DecidableEq, Repr

/-- A term of a sum, as it is meant. -/
structure Summand where
  /-- Whether it is subtracted. -/
  negative : Bool
  /-- What is added or subtracted. -/
  atom : Atom
  deriving DecidableEq, Repr

/-- Whether the text is a number without a sign, or a name that is no number. -/
inductive Atom.IsText : Atom → List Char → Prop where
  | number {n : Int} {cs : List Char} :
      Number.parse? cs = some n → '-' ∉ cs → IsText (.number n) cs
  | symbol {name : String} :
      isSymbolName name.toList = true → Number.parse? name.toList = none →
      IsText (.symbol name) name.toList

/-- Whether the text can begin a sum with this term. A number may have a minus sign. -/
inductive IsFirst : Summand → List Char → Prop where
  | plain {atom : Atom} {cs text : List Char} :
      atom.IsText cs → IsPadded cs text → IsFirst ⟨false, atom⟩ text
  | minus {n : Int} {cs front inner : List Char} :
      (Atom.number n).IsText cs → (∀ c ∈ front, isBlank c = true) → IsPadded cs inner →
      IsFirst ⟨true, .number n⟩ (front ++ '-' :: inner)

/-- Whether the text can go on with these terms, each behind its sign. -/
inductive IsRest : List Summand → List Char → Prop where
  | nil : IsRest [] []
  | cons {s : Summand} {summands : List Summand} {cs text rest : List Char} :
      s.atom.IsText cs → IsPadded cs text → IsRest summands rest →
      IsRest (s :: summands) ((if s.negative then '-' else '+') :: (text ++ rest))

/-- Whether the text is the sum of these terms. -/
inductive IsSum : List Summand → List Char → Prop where
  | sum {s : Summand} {summands : List Summand} {first rest : List Char} :
      IsFirst s first → IsRest summands rest → IsSum (s :: summands) (first ++ rest)

/-! ## What a sum amounts to -/

/-- What a term adds to the numbers of a sum. -/
def Summand.amount (s : Summand) : Int :=
  match s.atom with
  | .number n => if s.negative then -n else n
  | .symbol _ => 0

/-- The symbol that a term is. -/
def Summand.symbol? (s : Summand) : Option String :=
  match s.atom with
  | .number _ => none
  | .symbol name => some name

/-- The sum of the numbers. -/
def total (summands : List Summand) : Int :=
  (summands.map Summand.amount).sum

/-- The symbols among the terms. -/
def symbols (summands : List Summand) : List String :=
  summands.filterMap Summand.symbol?

/-- Whether the terms make up a value. -/
structure IsReadable (summands : List Summand) : Prop where
  /-- At most one term is a symbol. -/
  one : (symbols summands).length ≤ 1
  /-- The symbol is not subtracted. -/
  added : ∀ s ∈ summands, s.symbol? ≠ none → s.negative = false
  /-- All partial sums are quantities. -/
  fits : ∀ k, Quantity.fits (total (summands.take k)) = true

/-- The value of a sum: the symbol with the numbers added to it, or the sum of the numbers. -/
def ofSummands (summands : List Summand) : Value :=
  match symbols summands with
  | [] => .const (total summands)
  | name :: _ => .symbol { name, addend := total summands, short := false }

/-- What has been read when these terms have been read. -/
def sumOf (summands : List Summand) : Sum :=
  ⟨(symbols summands).head?, total summands⟩

/-- The sum with one more term, as it is meant. -/
def Sum.plus? (sum : Sum) (s : Summand) : Option Sum :=
  match s.atom with
  | .number _ =>
    if Quantity.fits (sum.addend + s.amount) then
      some { sum with addend := sum.addend + s.amount }
    else none
  | .symbol name =>
    if !s.negative && sum.symbol.isNone then some { sum with symbol := some name } else none

theorem value_sumOf (summands : List Summand) : (sumOf summands).value = ofSummands summands := by
  unfold sumOf Sum.value ofSummands
  cases symbols summands <;> rfl

theorem total_concat (summands : List Summand) (s : Summand) :
    total (summands ++ [s]) = total summands + s.amount := by
  simp [total]

theorem symbols_concat (summands : List Summand) (s : Summand) :
    symbols (summands ++ [s]) = symbols summands ++ s.symbol?.toList := by
  rw [symbols, List.filterMap_append]
  cases h : s.symbol? <;> simp [symbols, h]

theorem isReadable_nil : IsReadable [] where
  one := Nat.zero_le 1
  added := by simp
  fits := by simp [total]; decide

/-- Terms in front of others make up a value if all do. -/
theorem IsReadable.front {front behind : List Summand} (h : IsReadable (front ++ behind)) :
    IsReadable front where
  one := by
    have hone := h.one
    rw [symbols, List.filterMap_append, List.length_append] at hone
    exact Nat.le_trans (Nat.le_add_right _ _) hone
  added := fun s hs => h.added s (List.mem_append_left behind hs)
  fits := by
    intro k
    have hk := h.fits (min k front.length)
    rwa [List.take_append_of_le_length (Nat.min_le_right ..), ← List.take_eq_take_min] at hk

/-- One more term. -/
theorem isReadable_concat_iff {summands : List Summand} (h : IsReadable summands) (s : Summand) :
    IsReadable (summands ++ [s]) ↔
      Quantity.fits (total summands + s.amount) = true ∧
        (s.symbol? ≠ none → s.negative = false ∧ symbols summands = []) := by
  constructor
  · intro hall
    have hfits := hall.fits (summands ++ [s]).length
    rw [List.take_length, total_concat] at hfits
    refine ⟨hfits, fun hsymbol => ⟨hall.added s (by simp) hsymbol, ?_⟩⟩
    obtain ⟨name, hname⟩ := Option.ne_none_iff_exists'.mp hsymbol
    have hone := hall.one
    rw [symbols_concat, hname, List.length_append] at hone
    exact List.length_eq_zero_iff.mp (Nat.le_zero.mp (Nat.le_of_succ_le_succ hone))
  · rintro ⟨hfits, hsymbol⟩
    refine ⟨?_, ?_, fun k => ?_⟩
    · rw [symbols_concat]
      cases hname : s.symbol? with
      | none =>
        rw [Option.toList_none, List.append_nil]
        exact h.one
      | some name =>
        rw [(hsymbol (by simp [hname])).2]
        exact Nat.le_refl 1
    · rw [List.forall_mem_append, List.forall_mem_singleton]
      exact ⟨h.added, fun hname => (hsymbol hname).1⟩
    · by_cases hk : k ≤ summands.length
      · rw [List.take_append_of_le_length hk]
        exact h.fits k
      · rw [List.take_of_length_le (by rw [List.length_append, List.length_singleton]; omega),
          total_concat]
        exact hfits

/-- What has been read so far decides about the next term. -/
theorem plus?_eq_some_iff {summands : List Summand} (h : IsReadable summands) (s : Summand)
    {next : Sum} :
    (sumOf summands).plus? s = some next ↔
      IsReadable (summands ++ [s]) ∧ next = sumOf (summands ++ [s]) := by
  have hwhole : Quantity.fits (total summands) = true := by
    have hfits := h.fits summands.length
    rwa [List.take_length] at hfits
  rw [isReadable_concat_iff h, sumOf, sumOf, total_concat, symbols_concat]
  obtain ⟨negative, atom⟩ := s
  cases atom with
  | number n =>
    simp only [Sum.plus?, Summand.symbol?, Option.toList_none, List.append_nil, ne_eq,
      not_true_eq_false, false_implies, and_true, Option.ite_none_right_eq_some, Option.some.injEq,
      eq_comm (a := next)]
  | symbol name =>
    have hzero : total summands + (⟨negative, .symbol name⟩ : Summand).amount = total summands :=
      Int.add_zero _
    rw [hzero]
    simp only [Sum.plus?, Summand.symbol?, hwhole, true_and, ne_eq, reduceCtorEq,
      not_false_eq_true, true_implies, Bool.and_eq_true, Bool.not_eq_true',
      Option.isNone_iff_eq_none, List.head?_eq_none_iff, Option.ite_none_right_eq_some,
      Option.some.injEq, eq_comm (a := next)]
    refine and_congr_right fun hfirst => ?_
    rw [hfirst.2]
    rfl

/-- Terms are read one after another. -/
theorem foldlM_plus?_eq_some_iff {behind : List Summand} {sum : Sum} :
    ∀ {front : List Summand}, IsReadable front →
      (behind.foldlM Sum.plus? (sumOf front) = some sum ↔
        IsReadable (front ++ behind) ∧ sum = sumOf (front ++ behind)) := by
  induction behind with
  | nil =>
    intro front h
    rw [List.append_nil]
    exact ⟨fun hsum => ⟨h, (Option.some.inj hsum).symm⟩, fun hsum => congrArg some hsum.2.symm⟩
  | cons s behind ih =>
    intro front h
    rw [List.foldlM_cons, List.append_cons]
    constructor
    · intro hsum
      obtain ⟨next, hnext, hsum⟩ := Option.bind_eq_some_iff.mp hsum
      obtain ⟨hreadable, rfl⟩ := (plus?_eq_some_iff h s).mp hnext
      exact (ih hreadable).mp hsum
    · intro hsum
      have hreadable := hsum.1.front
      rw [(plus?_eq_some_iff h s).mpr ⟨hreadable, rfl⟩]
      exact (ih hreadable).mpr hsum

/-! ## Reading terms -/

/-- A term is read as what it is meant to be. -/
def IsTermOf (t : Term) (s : Summand) : Prop :=
  ∀ sum : Sum, sum.add? t = sum.plus? s

theorem foldlM_eq_of_forall₂ {α β γ : Type} {R : α → β → Prop} {f : γ → α → Option γ}
    {g : γ → β → Option γ} (hstep : ∀ x y, R x y → ∀ s, f s x = g s y) {xs : List α} {ys : List β}
    (h : List.Forall₂ R xs ys) (s : γ) : xs.foldlM f s = ys.foldlM g s := by
  induction h generalizing s with
  | nil => rfl
  | cons hfirst _ ih =>
    rw [List.foldlM_cons, List.foldlM_cons, hstep _ _ hfirst]
    exact congrArg _ (funext ih)

/-- Whether the terms differ at most in the white space around them. -/
def Term.IsLike (t u : Term) : Prop :=
  t.negative = u.negative ∧ trim t.text = trim u.text

/-- Terms are read without the white space around them. -/
theorem Term.IsLike.add?_eq {t u : Term} (h : t.IsLike u) (sum : Sum) :
    sum.add? t = sum.add? u := by
  unfold Sum.add?
  rw [h.1, h.2]

/-- A number is added or subtracted. -/
theorem Sum.add?_of_number {t : Term} {n : Int} (h : Number.parse? t.text = some n) {s : Summand}
    (hatom : ∃ m, s.atom = .number m) (hamount : s.amount = if t.negative then -n else n) :
    IsTermOf t s := by
  intro sum
  obtain ⟨m, hm⟩ := hatom
  rw [← Number.parse?_congr (trim_trim t.text)] at h
  unfold Sum.add? Sum.plus?
  simp only [h, hm, hamount]
  cases t.negative <;> rfl

/-- The text of an atom is read as the atom. -/
theorem Atom.IsText.isTermOf {atom : Atom} {cs text : List Char} (h : atom.IsText cs)
    (htext : IsPadded cs text) (negative : Bool) : IsTermOf ⟨negative, text⟩ ⟨negative, atom⟩ := by
  cases h with
  | @number n _ hn _ =>
    refine Sum.add?_of_number (n := n) ?_ ⟨n, rfl⟩ rfl
    rw [Number.parse?_congr htext.trim_eq, hn]
  | @symbol name hname hn =>
    have htrim : trim text = name.toList :=
      htext.trim_eq.trans (trim_eq_self fun c hc =>
        isBlank_of_isPlain (isPlain_of_isSymbolName hname hc).1)
    intro sum
    unfold Sum.add? Sum.plus?
    simp only [htrim, hn, hname, Bool.true_and, String.ofList_toList]

/-- There are no signs in the text of an atom. -/
theorem Atom.IsText.noSigns {atom : Atom} {cs : List Char} (h : atom.IsText cs) :
    ∀ c ∈ cs, c ≠ '+' ∧ c ≠ '-' := by
  cases h with
  | number hn hminus =>
    obtain ⟨m, hm, -⟩ := (Number.parse?_eq_some_iff (Number.head?_trim_ne hminus)).mp hn
    exact Number.noSigns_of_magnitude? hm
  | symbol hname _ => exact fun c hc => (isPlain_of_isSymbolName hname hc).2

theorem Atom.IsText.noSigns_padded {atom : Atom} {cs text : List Char} (h : atom.IsText cs)
    (htext : IsPadded cs text) : ∀ c ∈ text, c ≠ '+' ∧ c ≠ '-' := by
  obtain ⟨front, behind, hfront, hbehind, rfl⟩ := htext
  simp only [List.forall_mem_append]
  exact ⟨⟨fun c hc => ne_sign_of_isBlank (hfront c hc), h.noSigns⟩,
    fun c hc => ne_sign_of_isBlank (hbehind c hc)⟩

/-- An atom is not blank. -/
theorem Atom.IsText.trim_ne_nil {atom : Atom} {cs : List Char} (h : atom.IsText cs) :
    trim cs ≠ [] := by
  intro hnil
  cases h with
  | number hn _ =>
    rw [← Number.parse?_congr (trim_trim cs), hnil] at hn
    cases hn
  | symbol hname _ =>
    rw [trim_eq_self fun c hc => isBlank_of_isPlain (isPlain_of_isSymbolName hname hc).1] at hnil
    exact ne_nil_of_isSymbolName hname hnil

/-! ## From the grammar to the terms -/

/-- The terms behind the first are what stands between the signs. -/
theorem IsRest.cutAtSigns {summands : List Summand} {rest : List Char} (h : IsRest summands rest)
    {head : List Char} (hhead : ∀ c ∈ head, c ≠ '+' ∧ c ≠ '-') :
    ∃ ts, cutAtSigns (head ++ rest) = (head, ts) ∧ List.Forall₂ IsTermOf ts summands := by
  induction h generalizing head with
  | nil => exact ⟨[], by rw [List.append_nil, cutAtSigns_eq_self hhead], .nil⟩
  | @cons s summands cs text rest hatom htext _ ih =>
    obtain ⟨ts, hts, hall⟩ := ih (hatom.noSigns_padded htext)
    obtain ⟨negative, atom⟩ := s
    refine ⟨⟨negative, text⟩ :: ts, ?_, .cons (hatom.isTermOf htext negative) hall⟩
    cases negative
    · exact cutAtSigns_append hhead (Or.inl rfl) hts
    · exact cutAtSigns_append hhead (Or.inr rfl) hts

/-- A term in front is read up to the first sign behind its first character. -/
theorem IsFirst.exists_term {s : Summand} {first : List Char} (h : IsFirst s first) :
    ∃ front c cs, (∀ d ∈ front, isBlank d = true) ∧ isBlank c = false ∧ c ≠ '+' ∧
      first = front ++ c :: cs ∧ (∀ d ∈ cs, d ≠ '+' ∧ d ≠ '-') ∧ IsTermOf ⟨false, c :: cs⟩ s := by
  cases h with
  | @plain atom cs text hatom htext =>
    have hsigns := hatom.noSigns_padded htext
    rcases forall_isBlank_or_exists first with hall | ⟨front, c, rest, hfront, hc, rfl⟩
    · exact absurd (htext.trim_eq.symm.trans (trim_eq_nil_iff.mpr hall)) hatom.trim_ne_nil
    · rw [List.forall_mem_append, List.forall_mem_cons] at hsigns
      refine ⟨front, c, rest, hfront, hc, hsigns.2.1.1, rfl, hsigns.2.2, fun sum => ?_⟩
      rw [← hatom.isTermOf htext false sum]
      have hpadded : IsPadded (c :: rest) (front ++ c :: rest) :=
        ⟨front, [], hfront, by simp, by simp⟩
      have hlike : Term.IsLike ⟨false, c :: rest⟩ ⟨false, front ++ c :: rest⟩ :=
        ⟨rfl, hpadded.trim_eq.symm⟩
      exact hlike.add?_eq sum
  | @minus n cs front inner hatom hfront hinner =>
    refine ⟨front, '-', inner, hfront, rfl, by decide, rfl, hatom.noSigns_padded hinner, ?_⟩
    cases hatom with
    | number hn hminus =>
      obtain ⟨m, hm, rfl⟩ := (Number.parse?_eq_some_iff (Number.head?_trim_ne hminus)).mp hn
      rw [← hinner.trim_eq] at hm
      exact Sum.add?_of_number (Number.parse?_minus_eq_some_iff.mpr ⟨m, hm, rfl⟩) ⟨_, rfl⟩ rfl

/-! ## From the terms to the grammar -/

/-- White space behind a text belongs to its last term. -/
theorem cutAtSigns_append_blank {behind : List Char} (h : ∀ c ∈ behind, isBlank c = true)
    (cs : List Char) :
    ∃ blank, (∀ c ∈ blank, isBlank c = true) ∧
      (cutAtSigns (cs ++ behind)).1 = (cutAtSigns cs).1 ++ blank ∧
      List.Forall₂ Term.IsLike (cutAtSigns (cs ++ behind)).2 (cutAtSigns cs).2 := by
  induction cs with
  | nil =>
    rw [List.nil_append, cutAtSigns_eq_self fun c hc => ne_sign_of_isBlank (h c hc)]
    exact ⟨behind, h, rfl, .nil⟩
  | cons c cs ih =>
    obtain ⟨blank, hblank, hhead, hterms⟩ := ih
    rw [List.cons_append, cutAtSigns, cutAtSigns]
    dsimp only
    by_cases hsign : (c == '+' || c == '-') = true
    · rw [if_pos hsign, if_pos hsign]
      refine ⟨[], by simp, rfl, .cons ⟨rfl, ?_⟩ hterms⟩
      show trim (cutAtSigns (cs ++ behind)).1 = trim (cutAtSigns cs).1
      rw [hhead]
      exact IsPadded.trim_eq ⟨[], blank, by simp, hblank, rfl⟩
    · rw [if_neg hsign, if_neg hsign]
      exact ⟨blank, hblank, congrArg (c :: ·) hhead, hterms⟩

/-- **Reading a value is reading its terms one after another.** -/
theorem parse?_eq {front : List Char} (hfront : ∀ d ∈ front, isBlank d = true) {c : Char}
    (hc : isBlank c = false) (cs : List Char) :
    parse? (front ++ c :: cs) =
      ((terms (c :: cs)).foldlM Sum.add? {}).map Sum.value := by
  have htrim : trim (front ++ c :: cs) = c :: trimEnd cs := by
    rw [trim, trimStart_append_cons hfront hc, trimEnd_cons hc]
  obtain ⟨behind, hbehind, hcs⟩ := exists_eq_trimEnd_append cs
  have hlike : List.Forall₂ Term.IsLike (terms (c :: cs)) (terms (c :: trimEnd cs)) := by
    obtain ⟨blank, hblank, hhead, hterms⟩ := cutAtSigns_append_blank hbehind (trimEnd cs)
    rw [← hcs] at hhead hterms
    refine .cons ⟨rfl, ?_⟩ hterms
    rw [hhead]
    exact IsPadded.trim_eq ⟨[], blank, by simp, hblank, rfl⟩
  rw [foldlM_eq_of_forall₂ (f := Sum.add?) (g := Sum.add?) (fun _ _ h => h.add?_eq) hlike]
  unfold parse?
  rw [htrim]
  dsimp only
  cases hn : Number.parse? (c :: trimEnd cs) with
  | none => rfl
  | some n =>
    -- a number is a sum of one term
    have hterm : terms (c :: trimEnd cs) = [⟨false, c :: trimEnd cs⟩] := by
      rw [terms, cutAtSigns_eq_self (Number.noSigns_of_parse? hc hn)]
    have hadd := Sum.add?_of_number (t := ⟨false, c :: trimEnd cs⟩) hn
      (s := ⟨false, .number n⟩) ⟨n, rfl⟩ rfl {}
    have hplus : Sum.plus? {} ⟨false, .number n⟩ = some { addend := n } := by
      show (if Quantity.fits (0 + n) = true then some (Sum.mk none (0 + n)) else none) = _
      rw [Int.zero_add, if_pos (Number.fits_of_parse? hn)]
    rw [hterm, List.foldlM_cons, hadd, hplus]
    rfl

/-- White space is no value. -/
theorem parse?_of_blank {text : List Char} (h : ∀ c ∈ text, isBlank c = true) :
    parse? text = none := by
  unfold parse?
  rw [trim_eq_nil_iff.mpr h]

/-- What is read as a term without a sign is an atom. -/
theorem exists_isText_of_add? {sum next : Sum} {t : Term} (hminus : '-' ∉ t.text)
    (h : sum.add? t = some next) : ∃ atom : Atom, atom.IsText (trim t.text) := by
  unfold Sum.add? at h
  dsimp only at h
  cases hn : Number.parse? (trim t.text) with
  | some n =>
    obtain ⟨front, behind, -, -, htext⟩ := isPadded_trim t.text
    refine ⟨.number n, .number hn fun hmem => hminus (htext ▸ ?_)⟩
    exact List.mem_append_left _ (List.mem_append_right _ hmem)
  | none =>
    simp only [hn] at h
    split at h
    · next hname =>
      rw [Bool.and_eq_true, Bool.and_eq_true] at hname
      have hatom : (Atom.symbol (String.ofList (trim t.text))).IsText
          (String.ofList (trim t.text)).toList := by
        refine .symbol ?_ ?_ <;> rw [String.toList_ofList]
        · exact hname.1.1
        · exact hn
      rw [String.toList_ofList] at hatom
      exact ⟨_, hatom⟩
    · cases h

/-- Terms that are read are terms of the grammar. -/
theorem exists_isRest_of_foldlM (cs : List Char) :
    ∀ {sum last : Sum}, (cutAtSigns cs).2.foldlM Sum.add? sum = some last →
      (∀ c ∈ (cutAtSigns cs).1, c ≠ '+' ∧ c ≠ '-') ∧
        ∃ summands rest, cs = (cutAtSigns cs).1 ++ rest ∧ IsRest summands rest := by
  induction cs with
  | nil => exact fun _ => ⟨by simp [cutAtSigns], [], [], rfl, .nil⟩
  | cons c cs ih =>
    intro sum last h
    rw [cutAtSigns] at h ⊢
    dsimp only at h ⊢
    by_cases hsign : (c == '+' || c == '-') = true
    · rw [if_pos hsign] at h ⊢
      obtain ⟨next, hnext, hlast⟩ := Option.bind_eq_some_iff.mp h
      obtain ⟨hhead, summands, rest, hcs, hrest⟩ := ih hlast
      obtain ⟨atom, hatom⟩ := exists_isText_of_add? (fun hmem => (hhead _ hmem).2 rfl) hnext
      refine ⟨by simp, ⟨c == '-', atom⟩ :: summands, c :: cs, rfl, ?_⟩
      have hc : c = if (c == '-') = true then '-' else '+' := by
        rw [Bool.or_eq_true, beq_iff_eq, beq_iff_eq] at hsign
        rcases hsign with rfl | rfl <;> rfl
      have hall := IsRest.cons (s := ⟨c == '-', atom⟩) hatom (isPadded_trim _) hrest
      rw [← hcs, ← hc] at hall
      exact hall
    · rw [if_neg hsign] at h ⊢
      obtain ⟨hhead, summands, rest, hcs, hrest⟩ := ih h
      refine ⟨List.forall_mem_cons.mpr ⟨by simpa using hsign, hhead⟩, summands, rest, ?_, hrest⟩
      rw [List.cons_append, ← hcs]

/-- A text that is read is a sum. -/
theorem exists_isSum_of_parse? {text : List Char} {v : Value} (h : parse? text = some v) :
    ∃ summands, IsSum summands text := by
  rcases forall_isBlank_or_exists text with hall | ⟨front, c, cs, hfront, hc, rfl⟩
  · rw [parse?_of_blank hall] at h
    cases h
  · rw [parse?_eq hfront hc] at h
    obtain ⟨last, hfold, -⟩ := Option.map_eq_some_iff.mp h
    obtain ⟨next, hnext, hlast⟩ := Option.bind_eq_some_iff.mp hfold
    obtain ⟨hhead, summands, rest, hcs, hrest⟩ := exists_isRest_of_foldlM cs hlast
    obtain ⟨s, hfirst⟩ : ∃ s, IsFirst s (front ++ c :: (cutAtSigns cs).1) := by
      by_cases hminus : c = '-'
      · subst hminus
        have hname : isSymbolName (trim ('-' :: (cutAtSigns cs).1)) = false := by
          rw [trim_cons hc]
          rfl
        cases hn : Number.parse? ('-' :: (cutAtSigns cs).1) with
        | none =>
          rw [← Number.parse?_congr (trim_trim _)] at hn
          unfold Sum.add? at hnext
          simp only [hn, hname, Bool.false_and] at hnext
          cases hnext
        | some n =>
          obtain ⟨m, hm, -⟩ := Number.parse?_minus_eq_some_iff.mp hn
          have hplain : '-' ∉ (cutAtSigns cs).1 := fun hmem => (hhead _ hmem).2 rfl
          have hnumber := (Number.parse?_eq_some_iff (Number.head?_trim_ne hplain)).mpr ⟨m, hm, rfl⟩
          exact ⟨_, .minus (.number hnumber hplain) hfront (isPadded_self _)⟩
      · have hplain : '-' ∉ c :: (cutAtSigns cs).1 := by
          rw [List.mem_cons, not_or]
          exact ⟨fun hc => hminus hc.symm, fun hmem => (hhead _ hmem).2 rfl⟩
        obtain ⟨atom, hatom⟩ := exists_isText_of_add? hplain hnext
        refine ⟨_, .plain hatom ((isPadded_trim _).trans ⟨front, [], hfront, by simp, ?_⟩)⟩
        rw [List.append_nil]
    refine ⟨s :: summands, ?_⟩
    have hsum := IsSum.sum hfirst hrest
    rw [List.append_assoc, List.cons_append, ← hcs] at hsum
    exact hsum

/-! ## What is read -/

/-- A sum is read term by term. -/
theorem IsSum.parse?_eq {summands : List Summand} {text : List Char} (h : IsSum summands text) :
    parse? text = (summands.foldlM Sum.plus? {}).map Sum.value := by
  cases h with
  | @sum s summands first rest hfirst hrest =>
    obtain ⟨front, c, cs, hfront, hc, -, rfl, hsigns, hterm⟩ := hfirst.exists_term
    obtain ⟨ts, hts, hall⟩ := hrest.cutAtSigns hsigns
    rw [List.append_assoc, List.cons_append, Value.parse?_eq hfront hc, terms, hts,
      foldlM_eq_of_forall₂ (fun _ _ h => h) (.cons hterm hall)]

/-- The value that is read. -/
theorem IsSum.parse?_eq_some_iff {summands : List Summand} {text : List Char}
    (h : IsSum summands text) {v : Value} :
    parse? text = some v ↔ IsReadable summands ∧ v = ofSummands summands := by
  rw [h.parse?_eq, Option.map_eq_some_iff, ← value_sumOf]
  constructor
  · rintro ⟨sum, hsum, rfl⟩
    obtain ⟨hreadable, rfl⟩ := (foldlM_plus?_eq_some_iff isReadable_nil).mp hsum
    exact ⟨hreadable, rfl⟩
  · rintro ⟨hreadable, rfl⟩
    exact ⟨sumOf summands, (foldlM_plus?_eq_some_iff isReadable_nil).mpr ⟨hreadable, rfl⟩, rfl⟩

/-! ## Gaps -/

/-- Whether there is nothing but white space between a sign and the next one or the end. -/
def HasGap (text : List Char) : Prop :=
  ∃ front sign blank behind, text = front ++ sign :: (blank ++ behind) ∧
    (sign = '+' ∨ sign = '-') ∧ (∀ c ∈ blank, isBlank c = true) ∧
    ∀ c ∈ behind.head?, c = '+' ∨ c = '-'

/-- Gaps are behind text without signs. -/
theorem HasGap.of_append {cs rest : List Char} (hcs : ∀ c ∈ cs, c ≠ '+' ∧ c ≠ '-')
    (h : HasGap (cs ++ rest)) : HasGap rest := by
  obtain ⟨front, sign, blank, behind, htext, hsign, hblank, hbehind⟩ := h
  have hout : sign ∉ cs := fun hmem => hsign.elim (hcs sign hmem).1 (hcs sign hmem).2
  rcases List.append_eq_append_iff.mp htext with ⟨mid, rfl, hrest⟩ | ⟨mid, rfl, hmid⟩
  · exact ⟨mid, sign, blank, behind, hrest, hsign, hblank, hbehind⟩
  · cases mid with
    | nil => exact ⟨[], sign, blank, behind, hmid.symm, hsign, hblank, hbehind⟩
    | cons c mid =>
      rw [← (List.cons.inj hmid).1] at hout
      exact absurd (List.mem_append_right front List.mem_cons_self) hout

/-- There is no gap between a sign and the term behind it. -/
theorem HasGap.of_cons {sign : Char} {cs rest : List Char} {atom : Atom} {text : List Char}
    (hatom : atom.IsText cs) (htext : IsPadded cs text) (h : HasGap (sign :: (text ++ rest))) :
    HasGap rest := by
  have hsigns := hatom.noSigns_padded htext
  obtain ⟨front, sign', blank, behind, hall, hsign, hblank, hbehind⟩ := h
  cases front with
  | cons c front =>
    exact HasGap.of_append hsigns
      ⟨front, sign', blank, behind, (List.cons.inj hall).2, hsign, hblank, hbehind⟩
  | nil =>
    rcases forall_isBlank_or_exists text with hnone | ⟨gap, c, cs', hgap, hc, rfl⟩
    · exact absurd (htext.trim_eq.symm.trans (trim_eq_nil_iff.mpr hnone)) hatom.trim_ne_nil
    · -- the first character of the term would have to be a sign
      have hstart := congrArg trimStart (List.cons.inj hall).2
      rw [List.append_assoc, List.cons_append, trimStart_append_cons hgap hc] at hstart
      cases behind with
      | nil =>
        rw [List.append_nil, trimStart_eq_nil hblank] at hstart
        cases hstart
      | cons d behind =>
        have hd : d = '+' ∨ d = '-' := hbehind d rfl
        have hsolid : isBlank d = false := by rcases hd with rfl | rfl <;> rfl
        rw [trimStart_append_cons hblank hsolid] at hstart
        obtain ⟨rfl, -⟩ := List.cons.inj hstart
        have hne := hsigns c (List.mem_append_right gap List.mem_cons_self)
        exact (hd.elim hne.1 hne.2).elim

theorem not_hasGap_nil : ¬HasGap [] := by
  rintro ⟨front, sign, blank, behind, h, -⟩
  cases front <;> cases h

theorem IsRest.not_hasGap {summands : List Summand} {rest : List Char}
    (h : IsRest summands rest) : ¬HasGap rest := by
  induction h with
  | nil => exact not_hasGap_nil
  | cons hatom htext _ ih => exact fun hgap => ih (hgap.of_cons hatom htext)

/-- All terms of a sum are there. -/
theorem IsSum.not_hasGap {summands : List Summand} {text : List Char} (h : IsSum summands text) :
    ¬HasGap text := by
  cases h with
  | @sum s summands first rest hfirst hrest =>
    intro hgap
    refine hrest.not_hasGap ?_
    cases hfirst with
    | plain hatom htext => exact hgap.of_append (hatom.noSigns_padded htext)
    | minus hatom hfront hinner =>
      rw [List.append_assoc, List.cons_append] at hgap
      refine HasGap.of_cons hatom hinner (hgap.of_append fun c hc => ?_)
      exact ne_sign_of_isBlank (hfront c hc)

/-- A sum does not begin with a plus sign. -/
theorem IsSum.head?_ne {summands : List Summand} {text : List Char} (h : IsSum summands text) :
    (trim text).head? ≠ some '+' := by
  cases h with
  | @sum s summands first rest hfirst hrest =>
    obtain ⟨front, c, cs, hfront, hc, hplus, rfl, -⟩ := hfirst.exists_term
    rw [List.append_assoc, List.cons_append, trim, trimStart_append_cons hfront hc,
      trimEnd_cons hc]
    exact fun hhead => hplus (Option.some.inj hhead)

/-! ## The text of a value -/

/-- Whether the text of the value is a number, or a name with a number added to it. -/
inductive IsLegible : Value → Prop where
  | const {n : Int} : Quantity.fits n = true → n ≠ Quantity.least → IsLegible (.const n)
  | symbol {r : SymbolRef} :
      isSymbolName r.name.toList = true → Number.parse? r.name.toList = none →
      Quantity.fits r.addend = true → r.addend ≠ Quantity.least → r.short = false →
      IsLegible (.symbol r)

theorem natAbs_le_of_fits {n : Int} (h : Quantity.fits n = true) (hleast : n ≠ Quantity.least) :
    n.natAbs ≤ Quantity.greatest := by
  rw [Quantity.fits_iff] at h
  unfold Quantity.least at hleast
  unfold Quantity.greatest
  omega

/-- The text of a value is read as the value. -/
theorem IsLegible.parse?_text {v : Value} (h : v.IsLegible) : parse? v.text.toList = some v := by
  cases h with
  | const hfits hleast => exact (isSpelledBy_signedHex (natAbs_le_of_fits hfits hleast) 1).value
  | symbol hsymbol hnumber hfits hleast hshort =>
    exact SymbolRef.parse?_text hsymbol hnumber (natAbs_le_of_fits hfits hleast) hshort

/-! ## The main result -/

/-- **The grammar of values.** A sum is read exactly if at most one term is a symbol, that one is
not subtracted, and all partial sums are quantities. No other text is read: none that begins with
a plus sign, and none that lacks a term. The text of a value is read as the value. -/
theorem value_grammar :
    (∀ summands text, IsSum summands text → ∀ v,
      parse? text = some v ↔ IsReadable summands ∧ v = ofSummands summands) ∧
    (∀ text, (∀ summands, ¬IsSum summands text) → parse? text = none) ∧
    (∀ text, (trim text).head? = some '+' ∨ HasGap text → parse? text = none) ∧
    ∀ v : Value, v.IsLegible → parse? v.text.toList = some v := by
  have hother : ∀ text, (∀ summands, ¬IsSum summands text) → parse? text = none := by
    intro text hnone
    cases h : parse? text with
    | none => rfl
    | some v =>
      obtain ⟨summands, hsum⟩ := exists_isSum_of_parse? h
      exact absurd hsum (hnone summands)
  refine ⟨fun _ _ h _ => h.parse?_eq_some_iff, hother, fun text h => ?_,
    fun _ h => h.parse?_text⟩
  refine hother text fun summands hsum => ?_
  rcases h with hplus | hgap
  · exact hsum.head?_ne hplus
  · exact hsum.not_hasGap hgap

/-- A symbol among numbers. -/
theorem value_grammar_symbol :
    IsSum [⟨true, .number 5⟩, ⟨false, .symbol "foo"⟩, ⟨true, .number 16⟩] " -5 + foo-0x10".toList ∧
      parse? " -5 + foo-0x10".toList =
        some (.symbol { name := "foo", addend := -21, short := false }) := by
  have hsum : IsSum [⟨true, .number 5⟩, ⟨false, .symbol "foo"⟩, ⟨true, .number 16⟩]
      " -5 + foo-0x10".toList := by
    have hfive : (Atom.number 5).IsText ['5'] := .number (by decide) (by decide)
    have hfoo : (Atom.symbol "foo").IsText "foo".toList := .symbol (by decide) (by decide)
    have hsixteen : (Atom.number 16).IsText "0x10".toList := .number (by decide) (by decide)
    have hrest := IsRest.cons (s := ⟨false, .symbol "foo"⟩) hfoo
      ⟨[' '], [], by decide, by decide, rfl⟩
      (.cons (s := ⟨true, .number 16⟩) hsixteen (isPadded_self _) .nil)
    have hfirst : IsFirst ⟨true, .number 5⟩ " -5 ".toList :=
      @IsFirst.minus 5 ['5'] [' '] ['5', ' '] hfive (by decide)
        ⟨[], [' '], by decide, by decide, rfl⟩
    exact .sum hfirst hrest
  have hreadable : IsReadable [⟨true, .number 5⟩, ⟨false, .symbol "foo"⟩, ⟨true, .number 16⟩] := by
    refine ⟨by decide, by decide, fun k => ?_⟩
    match k with
    | 0 | 1 | 2 => decide
    | k + 3 =>
      rw [List.take_of_length_le (Nat.le_add_left 3 k)]
      decide
  exact ⟨hsum, (value_grammar.1 _ _ hsum _).mpr ⟨hreadable, rfl⟩⟩

end Value

end Stm8
