import Stm8.Proofs.Operand.Spelling
import Stm8.Proofs.Text.Padding

/-!
# The grammar of operands

What an operand looks like, whatever the case of register names and endings and wherever
there is white space: a register, or the text of a value with brackets and endings around it
(`IsSpelled`). An ending is read as such first, so a value that itself ends like one is not
read back. All other values are, and nothing else is read as an operand that a form can take:

> `classify_of_spells`: a text that spells a value is read as this value.
> `isSpelled_of_classify`: a text that is read as an operand spells it.
-/

namespace Stm8

open Stm8.Text

/-! ## Texts of values -/

namespace Value

/-- Reading does not see white space around a text. -/
theorem parse?_congr {cs ds : List Char} (h : trim cs = trim ds) : parse? cs = parse? ds := by
  unfold parse?
  rw [h]

/-- A value that was read is not marked as lying in page zero. -/
theorem markShort_of_parse? {cs : List Char} {v : Value} (h : parse? cs = some v) :
    v.markShort false = v := by
  unfold parse? at h
  dsimp only at h
  split at h
  · cases h
  · split at h
    · cases h
      rfl
    · obtain ⟨sum, -, rfl⟩ := Option.map_eq_some_iff.mp h
      unfold Sum.value
      cases sum.symbol <;> rfl

/-- The characters with which operands begin that are no plain values. -/
def openings : List Char := ['#', '[', '(']

theorem isBlank_of_opening {c : Char} (hc : c ∈ openings) : isBlank c = false := by
  revert c
  decide

/-- No number begins like this. -/
theorem number?_eq_none_of_opening {c : Char} (hc : c ∈ openings) {cs ds : List Char}
    (htrim : trim cs = c :: ds) : Number.parse? cs = none := by
  have hmark : Number.radixMark (c :: ds) = (10, c :: ds) ∧ c ≠ '-' ∧ (c != '_') = true ∧
      digit? 10 c = none := by
    simp only [openings, List.mem_cons, List.not_mem_nil, or_false] at hc
    rcases hc with rfl | rfl | rfl <;> exact ⟨rfl, by decide, rfl, by decide⟩
  obtain ⟨hradix, hminus, hkeep, hdigit⟩ := hmark
  have hmem : c ∈ (c :: ds).filter (· != '_') := List.mem_filter.mpr ⟨List.mem_cons_self, hkeep⟩
  have hmagnitude : Number.magnitude? (c :: ds) = none := by
    unfold Number.magnitude?
    rw [hradix]
    dsimp only
    rw [readDigits?_eq_none hmem hdigit]
    rfl
  unfold Number.parse?
  rw [htrim]
  split
  · next heq => exact absurd (List.cons.inj heq).1 hminus
  · rw [hmagnitude]
    rfl

/-- The text of a value does not begin like another operand. -/
theorem head_of_parse? {cs : List Char} {v : Value} (h : parse? cs = some v) :
    ∃ c rest, trim cs = c :: rest ∧ c ∉ openings := by
  cases htext : trim cs with
  | nil =>
    unfold parse? at h
    rw [htext] at h
    cases h
  | cons c rest =>
    refine ⟨c, rest, rfl, fun hc => ?_⟩
    have hblank := isBlank_of_opening hc
    have hname : ∀ ds, isSymbolName (c :: ds) = false := by
      intro ds
      simp only [openings, List.mem_cons, List.not_mem_nil, or_false] at hc
      rcases hc with rfl | rfl | rfl <;> rfl
    -- the text is no number, and its first term is neither a number nor a name
    have hnumber : Number.parse? (c :: rest) = none :=
      number?_eq_none_of_opening hc (htext ▸ trim_trim cs)
    have hterm : ∀ ds, Sum.add? {} ⟨false, c :: ds⟩ = none := by
      intro ds
      have hnone : Number.parse? (trim (c :: ds)) = none :=
        number?_eq_none_of_opening hc ((trim_trim _).trans (trim_cons hblank ds))
      unfold Sum.add?
      simp only [hnone]
      rw [trim_cons hblank, hname]
      rfl
    unfold parse? at h
    simp only [htext, hnumber, terms, List.foldlM_cons, hterm] at h
    cases h

end Value

/-! ## The grammar -/

namespace Operand

/-- The endings of a symbol in page zero. -/
def shortEndings : List String := [".s", ".short"]

/-- Whether the text is the name of the register, in either case. -/
def IsNamed (r : Register) (text : List Char) : Prop :=
  ∃ name, sameLetters r.name.toList name = true ∧ IsPadded name text

/-- Whether the text is `b`, with or without an ending for a symbol in page zero. -/
inductive IsMarked (marks : List String) (b : List Char) : Bool → List Char → Prop where
  | plain {text : List Char} : IsPadded b text → IsMarked marks b false text
  | marked {text : List Char} : HasEnding marks b text → IsMarked marks b true text

/-- Whether `b` stands like this between the brackets of a pointer, first whether the pointer
is far and then whether its symbol is marked. -/
inductive IsPointee (marks : List String) (b : List Char) : Bool → Bool → List Char → Prop where
  | near {short : Bool} {text : List Char} :
      IsMarked marks b short text → IsPointee marks b false short text
  | word {text : List Char} : HasEnding [".w"] b text → IsPointee marks b false false text
  | far {text : List Char} : HasEnding [".e"] b text → IsPointee marks b true false text

/-- Whether the text spells an operand of the category with the value, where `b` is the text
of `v`. Between brackets, `marks` are the endings of a symbol in page zero. -/
inductive Spells (marks : List String) (b : List Char) (v : Value) :
    Kind → Value → List Char → Prop where
  | immediate {body text : List Char} :
      IsPadded b body → IsPadded ('#' :: body) text → Spells marks b v .immediate v text
  | direct {text : List Char} : IsPadded b text → Spells marks b v .directMemory v text
  | shortDirect {text : List Char} :
      HasEnding shortEndings b text → Spells marks b v .shortDirectMemory v text
  | offset {r : Register} {k : Kind} {short : Bool} {base index text : List Char} :
      (r, k) ∈ [(.x, .offsetX), (.y, .offsetY), (.sp, .offsetSp)] →
      IsMarked shortEndings b short base → IsNamed r index →
      IsPadded ('(' :: (base ++ ',' :: index ++ [')'])) text →
      Spells marks b v k (v.markShort short) text
  | pointer {far short : Bool} {k : Kind} {inner text : List Char} :
      (far, k) ∈ [(false, .pointerNear), (true, .pointerFar)] →
      IsPointee marks b far short inner → IsPadded ('[' :: (inner ++ [']'])) text →
      Spells marks b v k (v.markShort short) text
  | indexedPointer {r : Register} {far short : Bool} {k : Kind}
      {inner base index text : List Char} :
      (r, far, k) ∈ [(.x, false, .pointerNearX), (.y, false, .pointerNearY),
        (.x, true, .pointerFarX), (.y, true, .pointerFarY)] →
      IsPointee marks b far short inner → IsPadded ('[' :: (inner ++ [']'])) base →
      IsNamed r index → IsPadded ('(' :: (base ++ ',' :: index ++ [')'])) text →
      Spells marks b v k (v.markShort short) text

/-- Whether the text spells an operand: a register, `(X)`, `(Y)`, or something with a
value. -/
inductive IsSpelled (marks : List String) (text : List Char) : Kind → Option Value → Prop where
  | register {r : Register} : IsNamed r text → IsSpelled marks text (.register r) none
  | indexed {r : Register} {k : Kind} {inner : List Char} :
      (r, k) ∈ [(.x, .indexedX), (.y, .indexedY)] → IsNamed r inner →
      IsPadded ('(' :: (inner ++ [')'])) text → IsSpelled marks text k none
  | value {b : List Char} {v w : Value} {k : Kind} :
      Value.parse? b = some v → Spells marks b v k w text → IsSpelled marks text k (some w)

/-! ## Registers -/

theorem named?_of_sameLetters {r : Register} {name : List Char}
    (h : sameLetters r.name.toList name = true) : Register.named? name = some r := by
  rw [← Register.named?_name r]
  unfold Register.named? sameLetters
  rw [beq_iff_eq.mp h]

theorem sameLetters_of_named? {r : Register} {name : List Char}
    (h : Register.named? name = some r) : sameLetters r.name.toList name = true := by
  have hfound := List.find?_some h
  exact hfound

/-- White space aside, the names of registers are letters. -/
theorem IsNamed.named? {r : Register} {text : List Char} (h : IsNamed r text) :
    Register.named? (trim text) = some r ∧ ',' ∉ text := by
  obtain ⟨name, hsame, hpadded⟩ := h
  have hsame' : sameLetters name r.name.toList = true := beq_iff_eq.mpr (beq_iff_eq.mp hsame).symm
  have hplain : ∀ c ∈ name, isPlain c = true :=
    isPlain_of_sameLetters hsame' (by cases r <;> decide)
  constructor
  · rw [hpadded.trim_eq, trim_eq_self (isBlank_of_plain hplain)]
    exact named?_of_sameLetters hsame
  · obtain ⟨front, behind, hfront, hbehind, rfl⟩ := hpadded
    intro hmem
    rcases List.mem_append.mp hmem with hmem | hmem
    · rcases List.mem_append.mp hmem with hmem | hmem
      · cases hfront _ hmem
      · cases hplain _ hmem
    · cases hbehind _ hmem

theorem isNamed_of_named? {r : Register} {text : List Char}
    (h : Register.named? (trim text) = some r) : IsNamed r text :=
  ⟨trim text, sameLetters_of_named? h, isPadded_trim text⟩

/-! ## Brackets -/

/-- Text that begins with no other sign is a register or an address. -/
theorem classify_of_head {text : List Char} {c : Char} {rest : List Char}
    (htext : trim text = c :: rest) (hc : c ∉ Value.openings) :
    classify text = classifyPlain (c :: rest) := by
  have hother : ∀ sign ∈ Value.openings, c ≠ sign := fun sign hsign hsame => hc (hsame ▸ hsign)
  unfold classify
  rw [htext]
  split
  · next heq => cases heq
  · next heq => exact absurd (List.cons.inj heq).1 (hother '#' (by decide))
  · next heq => exact absurd (List.cons.inj heq).1 (hother '[' (by decide))
  · next heq => exact absurd (List.cons.inj heq).1 (hother '(' (by decide))
  · rfl

/-- What stands in front of an index register, and the register. -/
theorem classify_of_isNamed {r : Register} {base index text : List Char} (hindex : IsNamed r index)
    (htext : IsPadded ('(' :: (base ++ ',' :: index ++ [')'])) text) :
    classify text = classifyIndexed (trim base) r := by
  obtain ⟨hr, hcomma⟩ := hindex.named?
  unfold classify
  rw [htext.trim_eq, trim_enclosed rfl rfl]
  show classifyParenthesized _ = _
  unfold classifyParenthesized
  simp only [enclosed?_wrap, splitAtLastComma?_append base hcomma, hr]

theorem splitAtLastComma?_eq_none {cs : List Char} (h : ',' ∉ cs) :
    splitAtLastComma? cs = none := by
  have hall : ∀ c ∈ cs.reverse, (c != ',') = true := by
    intro c hc
    rw [bne_iff_ne]
    rintro rfl
    exact h (List.mem_reverse.mp hc)
  have hnone := @List.dropWhile_append_of_pos _ _ _ [] hall
  rw [List.append_nil, List.dropWhile_nil] at hnone
  unfold splitAtLastComma?
  rw [hnone]

/-- The name of a register is read as the register. -/
theorem classify_of_register {r : Register} {text : List Char} (h : IsNamed r text) :
    classify text = .ok (.register r, none) := by
  obtain ⟨hr, -⟩ := h.named?
  obtain ⟨c, rest, hhead, hc⟩ : ∃ c rest, trim text = c :: rest ∧ c ∉ Value.openings := by
    cases htrim : trim text with
    | nil =>
      rw [htrim] at hr
      cases hr
    | cons c rest =>
      refine ⟨c, rest, rfl, fun hc => ?_⟩
      have hletter : ∀ c ∈ Value.openings, c.isAlpha = false := by decide
      rw [htrim, named?_eq_none List.mem_cons_self (hletter c hc)] at hr
      cases hr
  rw [classify_of_head hhead hc, ← hhead, classifyPlain, hr]

/-- `(X)` and `(Y)` -/
theorem classify_of_parenthesized {r : Register} {k : Kind} {inner text : List Char}
    (hk : (r, k) ∈ [(.x, .indexedX), (.y, .indexedY)]) (hinner : IsNamed r inner)
    (htext : IsPadded ('(' :: (inner ++ [')'])) text) : classify text = .ok (k, none) := by
  obtain ⟨hr, hcomma⟩ := hinner.named?
  unfold classify
  rw [htext.trim_eq, trim_enclosed rfl rfl]
  show classifyParenthesized _ = _
  unfold classifyParenthesized
  simp only [enclosed?_wrap, splitAtLastComma?_eq_none hcomma, hr]
  simp only [List.mem_cons, Prod.mk.injEq, List.not_mem_nil, or_false] at hk
  rcases hk with ⟨rfl, rfl⟩ | ⟨rfl, rfl⟩ <;> rfl

/-! ## Values that are read back -/

section

variable {b : List Char} {v : Value} (hv : Value.parse? b = some v)
  (hregister : Register.named? (trim b) = none)
  (hendings : ∀ ending ∈ endings, dropEnding? ending (trim b) = none)

include hv

/-- Wherever it stands, the text of a value is read as the value. -/
theorem valueIn_of_trim {cs : List Char} (h : trim cs = trim b) : valueIn cs = .ok v := by
  rw [valueIn, Value.parse?_congr h, hv]

theorem valueIn_of_trimEnd {body : List Char} (h : trimEnd body = trim b) :
    valueIn body = .ok v :=
  valueIn_of_trim hv ((isPadded_trimEnd body).trim_eq.trans ((congrArg trim h).trans (trim_trim b)))

theorem trim_ne_nil : trim b ≠ [] := by
  obtain ⟨c, rest, htrim, -⟩ := Value.head_of_parse? hv
  rw [htrim]
  exact List.cons_ne_nil c rest

include hendings

/-- The endings of the text of a value are those that were put behind it. -/
theorem splitShort_of_isMarked {short : Bool} {text : List Char}
    (h : IsMarked shortEndings b short text) : splitShort (trim text) = (trim b, short) := by
  unfold splitShort
  rw [trimEnd_trim]
  cases h with
  | plain h =>
    have hshort := hendings ".short".toList (by decide)
    have hs := hendings ".s".toList (by decide)
    rw [h.trim_eq]
    simp only [hshort, hs]
  | marked h =>
    obtain ⟨ending, hending, body, hbody, hdrop, hother⟩ :=
      h.exists_dropEnding? (trim_ne_nil hv) (by decide)
    simp only [shortEndings, List.mem_cons, List.not_mem_nil, or_false] at hending
    rcases hending with rfl | rfl
    · have hnone := hother ".short".toList (by decide) (by decide)
      simp only [hnone, hdrop, hbody]
    · simp only [hdrop, hbody]

theorem shortValueIn_of_isMarked {short : Bool} {text : List Char}
    (h : IsMarked shortEndings b short text) :
    shortValueIn (trim text) = .ok (v.markShort short) := by
  unfold shortValueIn
  rw [splitShort_of_isMarked hv hendings h]
  dsimp only
  rw [valueIn_of_trim hv (trim_trim b)]
  rfl

/-- A value between the brackets of a pointer is read with its endings. -/
theorem pointerIn_of_isPointee {far short : Bool} {text : List Char}
    (h : IsPointee shortEndings b far short text) :
    pointerIn text = .ok (v.markShort short, far) := by
  unfold pointerIn
  cases h with
  | far h =>
    obtain ⟨ending, hending, body, hbody, hdrop, -⟩ :=
      h.exists_dropEnding? (trim_ne_nil hv) (by decide)
    obtain rfl := List.mem_singleton.mp hending
    simp only [hdrop, valueIn_of_trimEnd hv hbody, Value.markShort_of_parse? hv]
    rfl
  | word h =>
    obtain ⟨ending, hending, body, hbody, hdrop, hother⟩ :=
      h.exists_dropEnding? (trim_ne_nil hv) (by decide)
    obtain rfl := List.mem_singleton.mp hending
    have hfar := hother ".e".toList (by decide) (by decide)
    simp only [hfar, hdrop, valueIn_of_trimEnd hv hbody, Value.markShort_of_parse? hv]
    rfl
  | near h =>
    have hvalue := shortValueIn_of_isMarked hv hendings h
    have hneither : dropEnding? ".e".toList (trim text) = none ∧
        dropEnding? ".w".toList (trim text) = none := by
      cases h with
      | plain h =>
        rw [h.trim_eq]
        exact ⟨hendings ".e".toList (by decide), hendings ".w".toList (by decide)⟩
      | marked h =>
        obtain ⟨ending, hending, -, -, -, hother⟩ :=
          h.exists_dropEnding? (trim_ne_nil hv) (by decide)
        simp only [shortEndings, List.mem_cons, List.not_mem_nil, or_false] at hending
        rcases hending with rfl | rfl <;>
        exact ⟨hother _ (by decide) (by decide), hother _ (by decide) (by decide)⟩
    simp only [hneither.1, hneither.2, hvalue]
    rfl

omit hendings in
/-- The text of a value has the same beginning with an ending. -/
theorem exists_trim_of_isMarked {short : Bool} {text : List Char}
    (h : IsMarked shortEndings b short text) :
    ∃ rest, trim text = trim b ++ rest ∧ (short = true → '.' ∈ rest) := by
  cases h with
  | plain h =>
    refine ⟨[], by rw [h.trim_eq, List.append_nil], fun hshort => ?_⟩
    cases hshort
  | marked h =>
    obtain ⟨ending, -, behind, written, -, hdot, -, htrim⟩ :=
      h.exists_trim (trim_ne_nil hv) (by decide)
    exact ⟨behind ++ written, by rw [htrim, List.append_assoc],
      fun _ => List.mem_append_right _ hdot⟩

include hregister

omit hendings in
/-- What stands between the brackets of a pointer is no register. -/
theorem named?_of_isPointee {far short : Bool} {text : List Char}
    (h : IsPointee shortEndings b far short text) : Register.named? (trim text) = none := by
  have hending : ∀ {ending : String}, isDotted ending = true → HasEnding [ending] b text →
      Register.named? (trim text) = none := by
    intro ending hdotted h
    obtain ⟨-, -, behind, written, -, hdot, -, htrim⟩ :=
      h.exists_trim (trim_ne_nil hv) (by simpa using hdotted)
    rw [htrim]
    exact named?_eq_none (List.mem_append_right _ hdot) rfl
  cases h with
  | far h => exact hending (by decide) h
  | word h => exact hending (by decide) h
  | near h =>
    obtain ⟨rest, htrim, hdot⟩ := exists_trim_of_isMarked hv h
    cases h with
    | plain h =>
      rw [h.trim_eq]
      exact hregister
    | marked h =>
      rw [htrim]
      exact named?_eq_none (List.mem_append_right _ (hdot rfl)) rfl

/-- A text that spells a value is read as this value. -/
theorem classify_of_spells {k : Kind} {w : Value} {text : List Char}
    (h : Spells shortEndings b v k w text) : classify text = .ok (k, some w) := by
  obtain ⟨c, rest, hhead, hc⟩ := Value.head_of_parse? hv
  cases h with
  | @immediate body _ hbody htext =>
    have htrim : trim text = '#' :: trimEnd body := htext.trim_eq.trans (trim_cons rfl body)
    have hvalue : valueIn (trimEnd body) = .ok v :=
      valueIn_of_trim hv ((isPadded_trimEnd body).trim_eq.symm.trans hbody.trim_eq)
    unfold classify
    rw [htrim]
    simp only [hvalue]
    rfl
  | direct htext =>
    have hsplit := splitShort_of_isMarked hv hendings (.plain htext)
    rw [htext.trim_eq] at hsplit
    rw [classify_of_head (htext.trim_eq.trans hhead) hc, ← hhead]
    unfold classifyPlain
    simp only [hregister, hsplit, valueIn_of_trim hv (trim_trim b)]
    rfl
  | shortDirect htext =>
    have hsplit := splitShort_of_isMarked hv hendings (.marked htext)
    obtain ⟨rest', htrim, hdot⟩ := exists_trim_of_isMarked hv (.marked htext)
    have hfirst : trim text = c :: (rest ++ rest') := by
      rw [htrim, hhead, List.cons_append]
    have hregister : Register.named? (trim text) = none := by
      rw [htrim]
      exact named?_eq_none (List.mem_append_right _ (hdot rfl)) rfl
    rw [classify_of_head hfirst hc, ← hfirst]
    unfold classifyPlain
    simp only [hregister, hsplit, valueIn_of_trim hv (trim_trim b)]
    rfl
  | @offset r k short base index text hk hbase hindex htext =>
    have hvalue := shortValueIn_of_isMarked hv hendings hbase
    have hplain : ((trim base).head? == some '[') = false := by
      obtain ⟨rest', htrim, -⟩ := exists_trim_of_isMarked hv hbase
      rw [htrim, hhead, List.cons_append, List.head?_cons, beq_eq_false_iff_ne]
      intro hsame
      exact hc (Option.some.inj hsame ▸ by decide)
    rw [classify_of_isNamed hindex htext, classifyIndexed, hplain, if_neg Bool.false_ne_true]
    simp only [List.mem_cons, Prod.mk.injEq, List.not_mem_nil, or_false] at hk
    rcases hk with ⟨rfl, rfl⟩ | ⟨rfl, rfl⟩ | ⟨rfl, rfl⟩ <;>
    exact bind_eq_ok.mpr ⟨_, hvalue, rfl⟩
  | @pointer far short k inner text hk hinner htext =>
    have hvalue := pointerIn_of_isPointee hv hendings hinner
    have hread : classify text = classifyPointer ('[' :: (inner ++ [']'])) := by
      unfold classify
      rw [htext.trim_eq, trim_enclosed rfl rfl]
      rfl
    rw [hread, classifyPointer, insideBrackets, enclosed?_wrap]
    simp only [List.mem_cons, Prod.mk.injEq, List.not_mem_nil, or_false] at hk
    refine bind_eq_ok.mpr ⟨inner, rfl, ?_⟩
    rw [named?_of_isPointee hv hregister hinner]
    refine bind_eq_ok.mpr ⟨_, hvalue, ?_⟩
    rcases hk with ⟨rfl, rfl⟩ | ⟨rfl, rfl⟩ <;> rfl
  | @indexedPointer r far short k inner base index text hk hinner hbase hindex htext =>
    have hvalue := pointerIn_of_isPointee hv hendings hinner
    rw [classify_of_isNamed hindex htext, hbase.trim_eq, trim_enclosed rfl rfl, classifyIndexed,
      List.head?_cons, beq_self_eq_true, if_pos rfl, insideBrackets, enclosed?_wrap]
    simp only [List.mem_cons, Prod.mk.injEq, List.not_mem_nil, or_false] at hk
    refine bind_eq_ok.mpr ⟨inner, rfl, bind_eq_ok.mpr ⟨_, hvalue, ?_⟩⟩
    rcases hk with ⟨rfl, rfl, rfl⟩ | ⟨rfl, rfl, rfl⟩ | ⟨rfl, rfl, rfl⟩ | ⟨rfl, rfl, rfl⟩ <;> rfl

end

/-! ## What is read -/

/-- A value that is read is denoted by the text. -/
theorem parse?_of_valueIn {cs : List Char} {v : Value} (h : valueIn cs = .ok v) :
    Value.parse? cs = some v := by
  unfold valueIn at h
  cases hparse : Value.parse? cs with
  | none =>
    rw [hparse] at h
    cases h
  | some w =>
    rw [hparse] at h
    rw [Except.ok.inj h]

/-- What is split into a text and an ending consists of them. -/
theorem isMarked_of_splitShort {cs b : List Char} {short : Bool}
    (h : splitShort cs = (b, short)) : IsMarked shortEndings b short cs := by
  have hcs := isPadded_trimEnd cs
  unfold splitShort at h
  dsimp only at h
  split at h
  · next body hdrop =>
    obtain ⟨rfl, rfl⟩ := Prod.mk.inj h
    exact .marked (.of_dropEnding? (by decide) hcs hdrop (isPadded_trimEnd body))
  · split at h
    · next body hdrop =>
      obtain ⟨rfl, rfl⟩ := Prod.mk.inj h
      exact .marked (.of_dropEnding? (by decide) hcs hdrop (isPadded_trimEnd body))
    · obtain ⟨rfl, rfl⟩ := Prod.mk.inj h
      exact .plain hcs

theorem isMarked_of_shortValueIn {cs : List Char} {w : Value} (h : shortValueIn cs = .ok w) :
    ∃ b v short, Value.parse? b = some v ∧ IsMarked shortEndings b short cs ∧
      w = v.markShort short := by
  unfold shortValueIn at h
  rcases hsplit : splitShort cs with ⟨b, short⟩
  rw [hsplit] at h
  obtain ⟨v, hv, rfl⟩ := map_eq_ok.mp h
  exact ⟨b, v, short, parse?_of_valueIn hv, isMarked_of_splitShort hsplit, rfl⟩

theorem IsMarked.of_isPadded {b cs text : List Char} {short : Bool} {marks : List String}
    (h : IsMarked marks b short cs) (htext : IsPadded cs text) : IsMarked marks b short text := by
  cases h with
  | plain h => exact .plain (h.trans htext)
  | marked h =>
    obtain ⟨ending, hending, written, body, hsame, hbody, hcs⟩ := h
    exact .marked ⟨ending, hending, written, body, hsame, hbody, hcs.trans htext⟩

/-- What is read between the brackets of a pointer is a value with or without endings. -/
theorem isPointee_of_pointerIn {cs : List Char} {w : Value} {far : Bool}
    (h : pointerIn cs = .ok (w, far)) :
    ∃ b v short, Value.parse? b = some v ∧ IsPointee shortEndings b far short cs ∧
      w = v.markShort short := by
  have hcs := isPadded_trim cs
  unfold pointerIn at h
  dsimp only at h
  split at h
  · next body hdrop =>
    obtain ⟨v, hv, h⟩ := map_eq_ok.mp h
    obtain ⟨rfl, rfl⟩ := Prod.mk.inj h
    have hparse := parse?_of_valueIn hv
    exact ⟨body, v, false, hparse,
      .far (.of_dropEnding? List.mem_cons_self hcs hdrop (isPadded_self body)),
      (Value.markShort_of_parse? hparse).symm⟩
  · split at h
    · next body hdrop =>
      obtain ⟨v, hv, h⟩ := map_eq_ok.mp h
      obtain ⟨rfl, rfl⟩ := Prod.mk.inj h
      have hparse := parse?_of_valueIn hv
      exact ⟨body, v, false, hparse,
        .word (.of_dropEnding? List.mem_cons_self hcs hdrop (isPadded_self body)),
        (Value.markShort_of_parse? hparse).symm⟩
    · obtain ⟨v, hv, h⟩ := map_eq_ok.mp h
      obtain ⟨rfl, rfl⟩ := Prod.mk.inj h
      obtain ⟨b, v, short, hparse, hmarked, hw⟩ := isMarked_of_shortValueIn hv
      exact ⟨b, v, short, hparse, .near (hmarked.of_isPadded hcs), hw⟩

/-- What is found between brackets stands there. -/
theorem eq_of_enclosed? {opening closing : Char} {text inner : List Char}
    (h : enclosed? opening closing text = some inner) :
    text = opening :: (inner ++ [closing]) := by
  cases text with
  | nil => cases h
  | cons c cs =>
    rw [enclosed?] at h
    split at h
    · next hsame =>
      rw [Bool.and_eq_true, beq_iff_eq, beq_iff_eq] at hsame
      obtain ⟨rfl, hlast⟩ := hsame
      obtain ⟨front, rfl⟩ := List.getLast?_eq_some_iff.mp hlast
      rw [← Option.some.inj h, List.dropLast_concat]
    · cases h

theorem eq_of_insideBrackets {text inner : List Char} (h : insideBrackets text = .ok inner) :
    text = '[' :: (inner ++ [']']) := by
  unfold insideBrackets at h
  split at h
  · next found henclosed =>
    obtain rfl := Except.ok.inj h
    exact eq_of_enclosed? henclosed
  · cases h

/-- What is found before and behind a comma stands there. -/
theorem eq_of_splitAtLastComma? {cs base index : List Char}
    (h : splitAtLastComma? cs = some (base, index)) : cs = base ++ ',' :: index := by
  unfold splitAtLastComma? at h
  split at h
  · cases h
  · next c before hdrop =>
    obtain ⟨rfl, rfl⟩ := Prod.mk.inj (Option.some.inj h)
    -- the text is skipped up to a comma
    have hcomma : c = ',' := by
      have hfirst := List.head?_dropWhile_not (· != ',') cs.reverse
      rw [hdrop] at hfirst
      simpa using hfirst
    have hsplit := @List.takeWhile_append_dropWhile _ (· != ',') cs.reverse
    rw [hdrop, hcomma] at hsplit
    have hreverse := congrArg List.reverse hsplit
    rw [List.reverse_reverse, List.reverse_append, List.reverse_cons, List.append_assoc]
      at hreverse
    exact hreverse.symm

section

variable {text : List Char} {k : Kind} {value : Option Value} (hk : k ≠ .illegal)

include hk

theorem isSpelled_of_classifyPointer {cs : List Char} (htext : IsPadded cs text)
    (h : classifyPointer cs = .ok (k, value)) : IsSpelled shortEndings text k value := by
  obtain ⟨inner, hinner, h⟩ := bind_eq_ok.mp h
  rw [eq_of_insideBrackets hinner] at htext
  split at h
  · obtain ⟨rfl, -⟩ := Prod.mk.inj (Except.ok.inj h)
    exact absurd rfl hk
  · obtain ⟨⟨w, far⟩, hw, h⟩ := bind_eq_ok.mp h
    obtain ⟨rfl, rfl⟩ := Prod.mk.inj (Except.ok.inj h)
    obtain ⟨b, v, short, hparse, hpointee, rfl⟩ := isPointee_of_pointerIn hw
    refine .value hparse (.pointer ?_ hpointee htext)
    cases far <;> decide

theorem isSpelled_of_classifyIndexed {base index : List Char} {r : Register}
    (hindex : IsNamed r index) (htext : IsPadded ('(' :: (base ++ ',' :: index ++ [')'])) text)
    (h : classifyIndexed (trim base) r = .ok (k, value)) :
    IsSpelled shortEndings text k value := by
  have hbase := isPadded_trim base
  unfold classifyIndexed at h
  split at h
  · obtain ⟨inner, hinner, h⟩ := bind_eq_ok.mp h
    obtain ⟨⟨w, far⟩, hw, h⟩ := bind_eq_ok.mp h
    rw [eq_of_insideBrackets hinner] at hbase
    obtain ⟨b, v, short, hparse, hpointee, rfl⟩ := isPointee_of_pointerIn hw
    dsimp only at h
    split at h
    · obtain ⟨rfl, -⟩ := Prod.mk.inj (Except.ok.inj h)
      exact absurd rfl hk
    · obtain ⟨rfl, rfl⟩ := Prod.mk.inj (Except.ok.inj h)
      refine .value hparse (.indexedPointer ?_ hpointee hbase hindex htext)
      cases r <;> cases far <;> first | decide | exact absurd rfl hk
  · split at h
    · obtain ⟨rfl, -⟩ := Prod.mk.inj (Except.ok.inj h)
      exact absurd rfl hk
    · obtain ⟨w, hw, h⟩ := bind_eq_ok.mp h
      obtain ⟨rfl, rfl⟩ := Prod.mk.inj (Except.ok.inj h)
      obtain ⟨b, v, short, hparse, hmarked, rfl⟩ := isMarked_of_shortValueIn hw
      refine .value hparse (.offset ?_ (hmarked.of_isPadded hbase) hindex htext)
      cases r <;> first | decide | exact absurd rfl hk

theorem isSpelled_of_classifyParenthesized {cs : List Char} (htext : IsPadded cs text)
    (h : classifyParenthesized cs = .ok (k, value)) : IsSpelled shortEndings text k value := by
  unfold classifyParenthesized at h
  split at h
  · cases h
  · next inner henclosed =>
    rw [eq_of_enclosed? henclosed] at htext
    split at h
    · split at h
      · next hx =>
        obtain ⟨rfl, rfl⟩ := Prod.mk.inj (Except.ok.inj h)
        exact .indexed (by decide) (isNamed_of_named? hx) htext
      · next hy =>
        obtain ⟨rfl, rfl⟩ := Prod.mk.inj (Except.ok.inj h)
        exact .indexed (by decide) (isNamed_of_named? hy) htext
      · obtain ⟨rfl, -⟩ := Prod.mk.inj (Except.ok.inj h)
        exact absurd rfl hk
      · cases h
    · next base index hcomma =>
      rw [eq_of_splitAtLastComma? hcomma] at htext
      split at h
      · obtain ⟨rfl, -⟩ := Prod.mk.inj (Except.ok.inj h)
        exact absurd rfl hk
      · next r hr => exact isSpelled_of_classifyIndexed hk (isNamed_of_named? hr) htext h

omit hk in
theorem isSpelled_of_classifyPlain (h : classifyPlain (trim text) = .ok (k, value)) :
    IsSpelled shortEndings text k value := by
  unfold classifyPlain at h
  split at h
  · next r hr =>
    obtain ⟨rfl, rfl⟩ := Prod.mk.inj (Except.ok.inj h)
    exact .register (isNamed_of_named? hr)
  · rcases hsplit : splitShort (trim text) with ⟨b, short⟩
    rw [hsplit] at h
    obtain ⟨v, hv, h⟩ := map_eq_ok.mp h
    obtain ⟨rfl, rfl⟩ := Prod.mk.inj h
    have hmarked := (isMarked_of_splitShort hsplit).of_isPadded (isPadded_trim text)
    cases hmarked with
    | plain h => exact .value (parse?_of_valueIn hv) (.direct h)
    | marked h => exact .value (parse?_of_valueIn hv) (.shortDirect h)

/-- A text that is read as an operand spells it. -/
theorem isSpelled_of_classify (h : classify text = .ok (k, value)) :
    IsSpelled shortEndings text k value := by
  have htext := isPadded_trim text
  unfold classify at h
  split at h
  · cases h
  · next rest hrest =>
    rw [hrest] at htext
    obtain ⟨v, hv, h⟩ := map_eq_ok.mp h
    obtain ⟨rfl, rfl⟩ := Prod.mk.inj h
    exact .value (parse?_of_valueIn hv) (.immediate (isPadded_self rest) htext)
  · next hrest => exact isSpelled_of_classifyPointer hk (hrest ▸ htext) h
  · next hrest => exact isSpelled_of_classifyParenthesized hk (hrest ▸ htext) h
  · exact isSpelled_of_classifyPlain h

end

/-! ## Operands and their texts -/

/-- **The grammar of operands.** Registers, `(X)` and `(Y)` are read as such, and so is the
text of a value in every category that takes one, unless it is a register or itself ends like
one with an ending. Text that is read as an operand of another category than `illegal` is one
of these. -/
theorem parse_grammar :
    (∀ text (span : Span),
      (∀ r, IsNamed r text → parse text span = .ok { kind := .register r, span }) ∧
      (∀ r k inner, (r, k) ∈ [(.x, .indexedX), (.y, .indexedY)] → IsNamed r inner →
        IsPadded ('(' :: (inner ++ [')'])) text → parse text span = .ok { kind := k, span }) ∧
      ∀ b v, Value.parse? b = some v → Register.named? (trim b) = none →
        (∀ ending ∈ endings, dropEnding? ending (trim b) = none) →
        ∀ k w, Spells shortEndings b v k w text →
          parse text span = .ok { kind := k, value := some w, span }) ∧
    ∀ text span op, parse text span = .ok op → op.kind ≠ .illegal →
      op.span = span ∧ IsSpelled shortEndings text op.kind op.value := by
  refine ⟨fun text span => ⟨fun r hr => ?_, fun r k inner hk hinner htext => ?_,
    fun b v hv hregister hendings k w h => ?_⟩, fun text span op h hkind => ?_⟩
  · rw [parse, classify_of_register hr]
  · rw [parse, classify_of_parenthesized hk hinner htext]
  · rw [parse, classify_of_spells hv hregister hendings h]
  · unfold parse at h
    split at h
    · next k value hclassify =>
      obtain rfl := Except.ok.inj h
      exact ⟨rfl, isSpelled_of_classify hkind hclassify⟩
    · cases h

/-- A marked symbol in an indexed pointer, with capitals and white space. -/
theorem parse_grammar_pointer :
    parse " ( [foo .SHORT ] , x )".toList =
      .ok { kind := .pointerNearX, value := some (.ofShortName "foo") } := by
  obtain ⟨hread, -⟩ := parse_grammar
  have hinner : IsPointee shortEndings "foo".toList false true "foo .SHORT ".toList :=
    .near (.marked ⟨".short", by decide, ".SHORT".toList, "foo ".toList, by decide,
      ⟨[], [' '], by decide, by decide, by decide⟩, ⟨[], [' '], by decide, by decide, by decide⟩⟩)
  have hspells : Spells shortEndings "foo".toList (.ofName "foo") .pointerNearX
      ((Value.ofName "foo").markShort true) " ( [foo .SHORT ] , x )".toList :=
    @Spells.indexedPointer _ _ _ .x false true _ _ " [foo .SHORT ] ".toList " x ".toList _
      (by decide) hinner ⟨[' '], [' '], by decide, by decide, by decide⟩
      ⟨['x'], by decide, [' '], [' '], by decide, by decide, by decide⟩
      ⟨[' '], [], by decide, by decide, by decide⟩
  exact (hread _ .nowhere).2.2 _ _ (by decide) (by decide) (by decide) _ _ hspells

/-- Between brackets, too, symbols may be marked by the long ending. -/
theorem not_parse_grammar_short :
    ¬ ∀ text span op, parse text span = .ok op → op.kind ≠ .illegal →
      IsSpelled [".s"] text op.kind op.value := by
  intro hall
  have hread : parse "[foo.short]".toList .nowhere =
      .ok { kind := .pointerNear, value := some (.ofShortName "foo") } := rfl
  have hspelled := hall _ _ _ hread (by decide)
  dsimp only at hspelled
  generalize hkind : Kind.pointerNear = k at hspelled
  generalize hvalue : some (Value.ofShortName "foo") = value at hspelled
  cases hspelled with
  | register _ => cases hvalue
  | indexed _ _ _ => cases hvalue
  | @value b v w _ hv h =>
    replace hvalue := Option.some.inj hvalue
    cases h with
    | immediate _ _ | direct _ | shortDirect _ => cases hkind
    | offset hk _ _ _ => simp [← hkind] at hk
    | indexedPointer hk _ _ _ _ => simp [← hkind] at hk
    | @pointer far short _ inner _ hk hinner htext =>
      -- the brackets are those of the text, and the symbol is marked
      have hwhole : trim "[foo.short]".toList = '[' :: ("foo.short".toList ++ [']']) := by decide
      rw [htext.trim_eq, trim_enclosed rfl rfl] at hwhole
      obtain rfl := (List.append_inj' (List.cons.inj hwhole).2 rfl).1
      have hshort : short = true := by
        cases short with
        | true => rfl
        | false =>
          rw [Value.markShort_of_parse? hv] at hvalue
          have hmark := Value.markShort_of_parse? hv
          rw [← hvalue] at hmark
          cases hmark
      subst hshort
      cases hinner with
      | near h =>
        cases h with
        | marked h =>
          obtain ⟨ending, hending, body, -, hdrop, -⟩ :=
            h.exists_dropEnding? (trim_ne_nil hv) (by decide)
          obtain rfl := List.mem_singleton.mp hending
          have hnone : dropEnding? ".s".toList (trim "foo.short".toList) = none := by decide
          rw [hnone] at hdrop
          cases hdrop

end Operand

end Stm8
