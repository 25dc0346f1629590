import Stm8.Proofs.Success
import Stm8.Proofs.Text.Padding
import Stm8.Proofs.Value.Spelling

/-!
# Operands are read as they are spelled

For every category of operands: the text of a value, put between the brackets and
commas of the category (`Kind.spell`), is read as that category and that value.
Endings of the value are read first (`shortValueIn_ending`, `pointerIn_ending`); the
rest of the module is one theorem for each shape of the brackets.
-/

namespace Stm8

open Stm8.Text

namespace Operand

/-! ## Values with endings -/

section

variable {v : Value} {body : List Char}

theorem ne_nil_of_spelled (h : v.IsSpelledBy body) : body ≠ [] := by
  rintro rfl
  cases h.value

theorem isBlank_of_plain {cs : List Char} (h : ∀ c ∈ cs, isPlain c = true) :
    ∀ c ∈ cs, isBlank c = false :=
  fun c hc => isBlank_of_isPlain (h c hc)

/-- Endings are plain. -/
theorem plain_ending (h : v.IsSpelledBy body) {ending : List Char}
    (hending : ∀ c ∈ ending, isPlain c = true) : ∀ c ∈ body ++ ending, isPlain c = true := by
  intro c hc
  rcases List.mem_append.mp hc with hc | hc
  · exact h.plain c hc
  · exact hending c hc

theorem valueIn_of_spelled (h : v.IsSpelledBy body) : valueIn body = .ok v := by
  rw [valueIn, h.value]

/-- A plain value has no ending. -/
theorem splitShort_plain (h : v.IsSpelledBy body) : splitShort body = (body, false) := by
  have hshort := h.noEnding ".short".toList (by decide)
  have hs := h.noEnding ".s".toList (by decide)
  unfold splitShort
  simp only [trimEnd_eq_self (isBlank_of_plain h.plain), hshort, hs]

/-- A value behind which `.s` is written has that ending. -/
theorem splitShort_marked (h : v.IsSpelledBy body) :
    splitShort (body ++ ".s".toList) = (body, true) := by
  have htrim : trimEnd (body ++ ".s".toList) = body ++ ".s".toList :=
    trimEnd_eq_self (isBlank_of_plain (plain_ending h (by decide)))
  have hshort : dropEnding? ".short".toList (body ++ ".s".toList) = none :=
    dropEnding?_append_eq_none body (by decide) (by decide) (by decide)
  have hs : dropEnding? ".s".toList (body ++ ".s".toList) = some body :=
    dropEnding?_append (ne_nil_of_spelled h) (by decide)
  unfold splitShort
  simp only [htrim, hshort, hs, trimEnd_eq_self (isBlank_of_plain h.plain)]

/-- An offset is marked exactly if `.s` is written behind it. -/
theorem shortValueIn_ending (h : v.IsSpelledBy body) {ending : String}
    (hending : ending = "" ∨ ending = ".s") :
    shortValueIn (body ++ ending.toList) = .ok (v.markShort (ending == ".s")) := by
  rcases hending with rfl | rfl
  · rw [show ("" : String).toList = [] from rfl, List.append_nil]
    simp only [shortValueIn, splitShort_plain h, valueIn_of_spelled h]
    rfl
  · simp only [shortValueIn, splitShort_marked h, valueIn_of_spelled h]
    rfl

/-- The value in a pointer to a word is marked exactly if `.s` is written behind it. -/
theorem pointerIn_ending (h : v.IsSpelledBy body) {ending : String}
    (hending : ending = "" ∨ ending = ".s" ∨ ending = ".w") :
    pointerIn (body ++ ending.toList) = .ok (v.markShort (ending == ".s"), false) := by
  have hmarked : shortValueIn (body ++ ".s".toList) = .ok (v.markShort (".s" == ".s")) :=
    shortValueIn_ending h (Or.inr rfl)
  have hplain : shortValueIn (body ++ "".toList) = .ok (v.markShort ("" == ".s")) :=
    shortValueIn_ending h (Or.inl rfl)
  rcases hending with rfl | rfl | rfl
  · rw [show ("" : String).toList = [] from rfl, List.append_nil] at hplain ⊢
    have he := h.noEnding ".e".toList (by decide)
    have hw := h.noEnding ".w".toList (by decide)
    unfold pointerIn
    simp only [trim_eq_self (isBlank_of_plain h.plain), he, hw, hplain]
    rfl
  · have htrim : trim (body ++ ".s".toList) = body ++ ".s".toList :=
      trim_eq_self (isBlank_of_plain (plain_ending h (by decide)))
    have he : dropEnding? ".e".toList (body ++ ".s".toList) = none :=
      dropEnding?_append_eq_none body (by decide) (by decide) (by decide)
    have hw : dropEnding? ".w".toList (body ++ ".s".toList) = none :=
      dropEnding?_append_eq_none body (by decide) (by decide) (by decide)
    unfold pointerIn
    simp only [htrim, he, hw, hmarked]
    rfl
  · have htrim : trim (body ++ ".w".toList) = body ++ ".w".toList :=
      trim_eq_self (isBlank_of_plain (plain_ending h (by decide)))
    have he : dropEnding? ".e".toList (body ++ ".w".toList) = none :=
      dropEnding?_append_eq_none body (by decide) (by decide) (by decide)
    have hw : dropEnding? ".w".toList (body ++ ".w".toList) = some body :=
      dropEnding?_append (ne_nil_of_spelled h) (by decide)
    unfold pointerIn
    simp only [htrim, he, hw, valueIn_of_spelled h]
    rw [show (".w" == ".s") = false by decide, h.unmarked]
    rfl

/-- The value in a far pointer. -/
theorem pointerIn_far (h : v.IsSpelledBy body) :
    pointerIn (body ++ ".e".toList) = .ok (v, true) := by
  have htrim : trim (body ++ ".e".toList) = body ++ ".e".toList :=
    trim_eq_self (isBlank_of_plain (plain_ending h (by decide)))
  have he : dropEnding? ".e".toList (body ++ ".e".toList) = some body :=
    dropEnding?_append (ne_nil_of_spelled h) (by decide)
  unfold pointerIn
  simp only [htrim, he, valueIn_of_spelled h]
  rfl

end

/-! ## Brackets -/

theorem enclosed?_wrap (opening closing : Char) (inner : List Char) :
    enclosed? opening closing (opening :: (inner ++ [closing])) = some inner := by
  simp [enclosed?]

/-- The last comma is the one behind which there is none. -/
theorem splitAtLastComma?_append (base : List Char) {index : List Char} (h : ',' ∉ index) :
    splitAtLastComma? (base ++ ',' :: index) = some (base, index) := by
  have hindex : ∀ c ∈ index.reverse, (c != ',') = true := by
    intro c hc
    rw [bne_iff_ne]
    rintro rfl
    exact h (List.mem_reverse.mp hc)
  have hreverse : (base ++ ',' :: index).reverse = index.reverse ++ ',' :: base.reverse := by
    simp
  unfold splitAtLastComma?
  rw [hreverse, List.dropWhile_append_of_pos hindex, List.takeWhile_append_of_pos hindex]
  simp

/-! ## The categories -/

/-- `#v` -/
theorem classify_immediate {v : Value} {body : List Char} (hplain : ∀ c ∈ body, isPlain c = true)
    (h : Value.parse? body = some v) : classify ('#' :: body) = .ok (.immediate, some v) := by
  have htrim : trim ('#' :: body) = '#' :: body := by
    apply trim_eq_self
    rw [List.forall_mem_cons]
    exact ⟨rfl, isBlank_of_plain hplain⟩
  unfold classify
  rw [htrim]
  simp only [valueIn, h]
  rfl

/-- Plain text is a register or an address. -/
theorem classify_of_plain {cs : List Char} (hne : cs ≠ []) (hplain : ∀ c ∈ cs, isPlain c = true) :
    classify cs = classifyPlain cs := by
  have htrim : trim cs = cs := trim_eq_self (isBlank_of_plain hplain)
  unfold classify
  rw [htrim]
  cases cs with
  | nil => exact absurd rfl hne
  | cons c cs =>
    have hc := hplain c List.mem_cons_self
    split
    next heq => cases heq
    next heq => exact absurd (List.cons.inj heq).1 (ne_of_isPlain hc rfl)
    next heq => exact absurd (List.cons.inj heq).1 (ne_of_isPlain hc rfl)
    next heq => exact absurd (List.cons.inj heq).1 (ne_of_isPlain hc rfl)
    next => rfl

/-- `v` -/
theorem classify_direct {v : Value} {body : List Char} (h : v.IsSpelledBy body) :
    classify body = .ok (.directMemory, some v) := by
  rw [classify_of_plain (ne_nil_of_spelled h) h.plain]
  unfold classifyPlain
  simp only [h.noRegister, splitShort_plain h, valueIn_of_spelled h]
  rfl

/-- `v.s` -/
theorem classify_shortDirect {v : Value} {body : List Char} (h : v.IsSpelledBy body) :
    classify (body ++ ".s".toList) = .ok (.shortDirectMemory, some v) := by
  have hdot : '.' ∈ body ++ ".s".toList := List.mem_append_right _ (by decide)
  rw [classify_of_plain (by simp) (plain_ending h (by decide))]
  unfold classifyPlain
  simp only [named?_eq_none hdot rfl, splitShort_marked h, valueIn_of_spelled h]
  rfl

/-- A register -/
theorem classify_register (r : Register) :
    classify r.name.toList = .ok (.register r, none) := by
  have hplain : ∀ c ∈ r.name.toList, isPlain c = true := by cases r <;> decide
  have hne : r.name.toList ≠ [] := by cases r <;> decide
  rw [classify_of_plain hne hplain, classifyPlain, Register.named?_name]

/-- What stands in front of an index register, and the register. -/
theorem classify_indexed {base : List Char} {r : Register} (hbase : ∀ c ∈ base, isBlank c = false) :
    classify ('(' :: (base ++ ',' :: r.name.toList ++ [')'])) = classifyIndexed base r := by
  have hname : ∀ c ∈ r.name.toList, isPlain c = true := by cases r <;> decide
  have hcomma : ',' ∉ r.name.toList := fun hmem => ne_of_isPlain (hname _ hmem) rfl rfl
  unfold classify
  rw [trim_enclosed rfl rfl]
  show classifyParenthesized _ = _
  unfold classifyParenthesized
  simp only [enclosed?_wrap, splitAtLastComma?_append base hcomma,
    trim_eq_self (isBlank_of_plain hname), Register.named?_name, trim_eq_self hbase]

/-- `(v,X)`, `(v,Y)` and `(v,SP)` -/
theorem classify_offset {v : Value} {text : List Char} {r : Register}
    (hplain : ∀ c ∈ text, isPlain c = true) (h : shortValueIn text = .ok v)
    (hr : offsetKind r ≠ .illegal) :
    classify ('(' :: (text ++ ',' :: r.name.toList ++ [')'])) = .ok (offsetKind r, some v) := by
  have hhead : (text.head? == some '[') = false := by
    rw [beq_eq_false_iff_ne]
    intro hhead
    exact ne_of_isPlain (hplain '[' (List.mem_of_head? hhead)) rfl rfl
  rw [classify_indexed (isBlank_of_plain hplain), classifyIndexed, hhead,
    if_neg Bool.false_ne_true]
  cases r with
  | x | y | sp => exact bind_eq_ok.mpr ⟨v, h, rfl⟩
  | _ => exact absurd rfl hr

/-- `[v]` with an ending. -/
theorem classify_pointer {v : Value} {far : Bool} {text : List Char}
    (hplain : ∀ c ∈ text, isPlain c = true) (hregister : Register.named? text = none)
    (h : pointerIn text = .ok (v, far)) :
    classify ('[' :: (text ++ [']'])) =
      .ok (if far then .pointerFar else .pointerNear, some v) := by
  have hblank := isBlank_of_plain hplain
  unfold classify
  rw [trim_enclosed rfl rfl]
  show classifyPointer _ = _
  unfold classifyPointer insideBrackets
  rw [enclosed?_wrap, bind_eq_ok]
  refine ⟨text, rfl, ?_⟩
  rw [trim_eq_self hblank, hregister]
  exact bind_eq_ok.mpr ⟨(v, far), h, rfl⟩

/-- `([v],X)` and `([v],Y)` with an ending. -/
theorem classify_indexedPointer {v : Value} {far : Bool} {text : List Char} {r : Register}
    (hplain : ∀ c ∈ text, isPlain c = true) (h : pointerIn text = .ok (v, far))
    (hr : pointerKind r far ≠ .illegal) :
    classify ('(' :: ('[' :: (text ++ [']']) ++ ',' :: r.name.toList ++ [')'])) =
      .ok (pointerKind r far, some v) := by
  have hblank : ∀ c ∈ '[' :: (text ++ [']']), isBlank c = false := by
    intro c hc
    rcases List.mem_cons.mp hc with rfl | hc
    · rfl
    · rcases List.mem_append.mp hc with hc | hc
      · exact isBlank_of_plain hplain c hc
      · rw [List.mem_singleton.mp hc]
        rfl
  rw [classify_indexed hblank, classifyIndexed, List.head?_cons, beq_self_eq_true, if_pos rfl,
    insideBrackets, enclosed?_wrap, bind_eq_ok]
  refine ⟨text, rfl, bind_eq_ok.mpr ⟨(v, far), h, ?_⟩⟩
  cases r with
  | x | y => cases far <;> rfl
  | _ => exact absurd rfl hr

/-! ## All categories -/

/-- The endings with which a value is written in the category. -/
def Kind.endings : Kind → List String
  | offsetX | offsetY | offsetSp => ["", ".s"]
  | pointerNear | pointerNearX | pointerNearY => ["", ".s", ".w"]
  | _ => [""]

theorem mem_toList_of_ending {body ending : String} (hne : ending ≠ "")
    (hending : ending ∈ ["", ".s", ".w"]) : '.' ∈ (body ++ ending).toList := by
  rw [String.toList_append]
  apply List.mem_append_right
  simp only [List.mem_cons, List.not_mem_nil, or_false] at hending
  rcases hending with rfl | rfl | rfl
  · exact absurd rfl hne
  · decide
  · decide

/-- An operand is read as it is spelled: as the category, with the value, which is
marked exactly if `.s` is written behind it. -/
theorem classify_spell {k : Kind} (hk : k.takesValue = true) {v : Value} {body ending : String}
    (h : v.IsSpelledBy body.toList) (hending : ending ∈ k.endings) :
    classify (k.spell (body ++ ending)).toList =
      .ok (k, some (v.markShort (ending == ".s"))) := by
  -- what the categories need to know about the text of the value
  have hendings : ∀ e ∈ ["", ".s", ".w"], ∀ c ∈ e.toList, isPlain c = true := by decide
  have hplain : ending ∈ ["", ".s", ".w"] → ∀ c ∈ (body ++ ending).toList, isPlain c = true := by
    intro hmem
    rw [String.toList_append]
    exact plain_ending h (hendings ending hmem)
  have hregister : ending ∈ ["", ".s", ".w"] → Register.named? (body ++ ending).toList = none := by
    intro hmem
    by_cases hempty : ending = ""
    · rw [hempty, String.append_empty]
      exact h.noRegister
    · exact named?_eq_none (mem_toList_of_ending hempty hmem) rfl
  have hoffset : ending ∈ ["", ".s"] →
      shortValueIn (body ++ ending).toList = .ok (v.markShort (ending == ".s")) := by
    intro hmem
    rw [String.toList_append]
    exact shortValueIn_ending h (by simpa using hmem)
  have hpointer : ending ∈ ["", ".s", ".w"] →
      pointerIn (body ++ ending).toList = .ok (v.markShort (ending == ".s"), false) := by
    intro hmem
    rw [String.toList_append]
    exact pointerIn_ending h (by simpa using hmem)
  have hbare : ending ∈ [""] → v.markShort (ending == ".s") = v ∧ body ++ ending = body := by
    intro hmem
    obtain rfl := List.mem_singleton.mp hmem
    exact ⟨h.unmarked, String.append_empty⟩
  have hfar := pointerIn_far h
  have hplainFar : ∀ c ∈ body.toList ++ ".e".toList, isPlain c = true :=
    plain_ending h (by decide)
  cases k with
  | immediate =>
    obtain ⟨hvalue, htext⟩ := hbare hending
    rw [hvalue, htext, Kind.spell, String.toList_append]
    exact classify_immediate h.plain h.value
  | directMemory =>
    obtain ⟨hvalue, htext⟩ := hbare hending
    rw [hvalue, htext, Kind.spell]
    exact classify_direct h
  | shortDirectMemory =>
    obtain ⟨hvalue, htext⟩ := hbare hending
    rw [hvalue, htext, Kind.spell, String.toList_append]
    exact classify_shortDirect h
  | offsetX | offsetY | offsetSp =>
    have hmem : ending ∈ ["", ".s", ".w"] := List.mem_append_left [".w"] hending
    have hread := fun r => classify_offset (r := r) (hplain hmem) (hoffset hending)
    simp only [Kind.spell, String.toList_append, List.append_assoc] at hread ⊢
    first | exact hread .x (by decide) | exact hread .y (by decide) | exact hread .sp (by decide)
  | pointerNear =>
    have hread := classify_pointer (hplain hending) (hregister hending) (hpointer hending)
    simp only [Kind.spell, String.toList_append, List.append_assoc] at hread ⊢
    exact hread
  | pointerNearX | pointerNearY =>
    have hread := fun r => classify_indexedPointer (r := r) (hplain hending) (hpointer hending)
    simp only [Kind.spell, String.toList_append, List.append_assoc, List.cons_append] at hread ⊢
    first | exact hread .x (by decide) | exact hread .y (by decide)
  | pointerFar =>
    obtain ⟨hvalue, htext⟩ := hbare hending
    have hdot : '.' ∈ body.toList ++ ".e".toList := List.mem_append_right _ (by decide)
    have hread := classify_pointer hplainFar (named?_eq_none hdot rfl) hfar
    rw [hvalue, htext]
    simp only [Kind.spell, String.toList_append, List.append_assoc] at hread ⊢
    exact hread
  | pointerFarX | pointerFarY =>
    obtain ⟨hvalue, htext⟩ := hbare hending
    have hread := fun r => classify_indexedPointer (r := r) hplainFar hfar
    rw [hvalue, htext]
    simp only [Kind.spell, String.toList_append, List.append_assoc, List.cons_append] at hread ⊢
    first | exact hread .x (by decide) | exact hread .y (by decide)
  | indexedX | indexedY | register | illegal => cases hk

end Operand

end Stm8
