import Stm8.Operand.Parser
import Stm8.Proofs.Success

/-!
# What operands look like when they have been read

Operands can be built in any way, but those that are read from text have a certain shape:
they have a value exactly if their category takes one, and a symbol is marked as lying in
page zero only where the category has a short and a long form (`IsShape`).

> `isShape_of_classify`, by one lemma for each kind of brackets, and for operands
> `isShape_of_parse`.
-/

namespace Stm8

/-- The symbol of a value that was read is not marked. -/
theorem Value.isShortSymbol_of_parse? {cs : List Char} {v : Value} (h : parse? cs = some v) :
    v.isShortSymbol = false := by
  have hsum : ∀ sum : Sum, sum.value.isShortSymbol = false := by
    intro sum
    unfold Sum.value
    cases sum.symbol <;> rfl
  unfold parse? at h
  dsimp only at h
  split at h
  · cases h
  · split at h
    · injection h with h
      rw [← h]
      rfl
    · obtain ⟨sum, -, rfl⟩ := Option.map_eq_some_iff.mp h
      exact hsum sum

namespace Operand

/-! ## Shapes -/

/-- Whether a symbol of the category may be marked as lying in page zero. -/
def Kind.takesMark : Kind → Bool
  | offsetX | offsetY | offsetSp | pointerNear | pointerNearX | pointerNearY => true
  | _ => false

/-- What a category and a value look like that were read together. -/
structure IsShape (k : Kind) (value : Option Value) : Prop where
  /-- There is a value exactly if the category takes one. -/
  filled : value.isSome = k.takesValue
  /-- A symbol is marked only where it makes a difference. -/
  marked : ∀ v, value = some v → v.isShortSymbol = true → k.takesMark = true

theorem isShape_none {k : Kind} (h : k.takesValue = false) : IsShape k none where
  filled := h.symm
  marked := by
    intro v hv
    cases hv

theorem isShape_unmarked {k : Kind} (h : k.takesValue = true) {v : Value}
    (hv : v.isShortSymbol = false) : IsShape k (some v) where
  filled := h.symm
  marked := by
    intro w hw hmarked
    obtain rfl : v = w := Option.some.inj hw
    rw [hv] at hmarked
    cases hmarked

theorem isShape_marked {k : Kind} (h : k.takesMark = true) (v : Value) :
    IsShape k (some v) where
  filled := by cases k <;> first | rfl | cases h
  marked := fun _ _ _ => h

/-! ## Values with endings -/

theorem isShortSymbol_of_valueIn {cs : List Char} {v : Value} (h : valueIn cs = .ok v) :
    v.isShortSymbol = false := by
  unfold valueIn at h
  cases hparse : Value.parse? cs with
  | none =>
    rw [hparse] at h
    cases h
  | some w =>
    rw [hparse] at h
    injection h with h
    rw [← h]
    exact Value.isShortSymbol_of_parse? hparse

/-- The symbol of a far pointer is not marked. -/
theorem isShortSymbol_of_pointerIn {cs : List Char} {v : Value} (h : pointerIn cs = .ok (v, true)) :
    v.isShortSymbol = false := by
  unfold pointerIn at h
  dsimp only at h
  split at h
  · obtain ⟨w, hw, h⟩ := map_eq_ok.mp h
    obtain rfl : w = v := congrArg Prod.fst h
    exact isShortSymbol_of_valueIn hw
  · split at h
    · obtain ⟨w, -, h⟩ := map_eq_ok.mp h
      cases congrArg Prod.snd h
    · obtain ⟨w, -, h⟩ := map_eq_ok.mp h
      cases congrArg Prod.snd h

/-! ## Categories -/

/-- The operand of a pointer, indexed or not, looks as it should if the near category takes
marks. -/
theorem isShape_of_pointerIn {cs : List Char} {v : Value} {far : Bool}
    (h : pointerIn cs = .ok (v, far)) {k : Kind}
    (hk : if far then k.takesValue = true else k.takesMark = true) : IsShape k (some v) := by
  cases far with
  | false => exact isShape_marked hk v
  | true => exact isShape_unmarked hk (isShortSymbol_of_pointerIn h)

variable {k : Kind} {value : Option Value}

/-- A category that takes no value has been read without one. -/
theorem isShape_of_none {k' : Kind} (hk : k'.takesValue = false)
    (h : (.ok (k', none) : Except Malformation (Kind × Option Value)) = .ok (k, value)) :
    IsShape k value := by
  injection h with h
  obtain ⟨rfl, rfl⟩ := Prod.mk.inj h
  exact isShape_none hk

theorem isShape_of_classifyPointer {text : List Char}
    (h : classifyPointer text = .ok (k, value)) : IsShape k value := by
  obtain ⟨inner, -, h⟩ := bind_eq_ok.mp h
  split at h
  · exact isShape_of_none rfl h
  · obtain ⟨⟨v, far⟩, hv, h⟩ := bind_eq_ok.mp h
    injection h with h
    obtain ⟨rfl, rfl⟩ := Prod.mk.inj h
    exact isShape_of_pointerIn hv (by cases far <;> rfl)

theorem isShape_of_classifyIndexed {base : List Char} {index : Register}
    (h : classifyIndexed base index = .ok (k, value)) : IsShape k value := by
  unfold classifyIndexed at h
  split at h
  · obtain ⟨inner, -, h⟩ := bind_eq_ok.mp h
    obtain ⟨⟨v, far⟩, hv, h⟩ := bind_eq_ok.mp h
    have hpointer : pointerKind index far ≠ .illegal →
        if far then (pointerKind index far).takesValue = true
        else (pointerKind index far).takesMark = true := by
      cases index <;> cases far <;> decide
    dsimp only at h
    split at h
    · exact isShape_of_none rfl h
    · rename_i hlegal
      injection h with h
      obtain ⟨rfl, rfl⟩ := Prod.mk.inj h
      exact isShape_of_pointerIn hv (hpointer hlegal)
  · have hoffset : offsetKind index ≠ .illegal → (offsetKind index).takesMark = true := by
      cases index <;> decide
    split at h
    · exact isShape_of_none rfl h
    · rename_i hlegal
      obtain ⟨v, -, h⟩ := bind_eq_ok.mp h
      injection h with h
      obtain ⟨rfl, rfl⟩ := Prod.mk.inj h
      exact isShape_marked (hoffset hlegal) v

theorem isShape_of_classifyParenthesized {text : List Char}
    (h : classifyParenthesized text = .ok (k, value)) : IsShape k value := by
  unfold classifyParenthesized at h
  split at h
  · cases h
  · split at h
    · split at h
      · exact isShape_of_none rfl h
      · exact isShape_of_none rfl h
      · exact isShape_of_none rfl h
      · cases h
    · split at h
      · exact isShape_of_none rfl h
      · exact isShape_of_classifyIndexed h

theorem isShape_of_classifyPlain {text : List Char}
    (h : classifyPlain text = .ok (k, value)) : IsShape k value := by
  unfold classifyPlain at h
  split at h
  · exact isShape_of_none rfl h
  · -- the value is read without the mark, which only decides on the category
    generalize splitShort text = found at h
    obtain ⟨body, short⟩ := found
    obtain ⟨v, hv, h⟩ := map_eq_ok.mp h
    obtain ⟨rfl, rfl⟩ := Prod.mk.inj h
    refine isShape_unmarked ?_ (isShortSymbol_of_valueIn hv)
    cases short <;> rfl

/-- A category and a value that were read look as they should. -/
theorem isShape_of_classify {cs : List Char} (h : classify cs = .ok (k, value)) :
    IsShape k value := by
  unfold classify at h
  split at h
  · cases h
  · obtain ⟨v, hv, h⟩ := map_eq_ok.mp h
    obtain ⟨rfl, rfl⟩ := Prod.mk.inj h
    exact isShape_unmarked rfl (isShortSymbol_of_valueIn hv)
  · exact isShape_of_classifyPointer h
  · exact isShape_of_classifyParenthesized h
  · exact isShape_of_classifyPlain h

/-- **Operands that were read look as they should.** -/
theorem isShape_of_parse {cs : List Char} {span : Span} {op : Operand}
    (h : parse cs span = .ok op) : IsShape op.kind op.value := by
  unfold parse at h
  cases hclassify : classify cs with
  | error cause =>
    rw [hclassify] at h
    cases h
  | ok found =>
    rw [hclassify] at h
    injection h with h
    rw [← h]
    exact isShape_of_classify hclassify

end Operand

end Stm8
