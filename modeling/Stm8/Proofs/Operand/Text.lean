import Stm8.Proofs.Operand.Spelling

/-!
# Operands are read back from their text

`Operand.text` writes an operand that was built and not read. The text does not say
everything: it has no place, and it marks a symbol as lying in page zero only where the
category has a short and a long form (`Kind.showsShort`). The rest is read back:

> `classify_text`: the text of an operand is read as its category, with the value that
> it shows (`shownValue`).
-/

namespace Stm8

open Stm8.Text

/-! ## Values -/

/-- Whether the value has a text of its own: numbers with a magnitude that can be read,
and names that can be told from other texts. -/
def Value.IsWritable : Value → Prop
  | const v => v.natAbs ≤ Quantity.greatest
  | symbol r => IsReferable r.name ∧ r.addend.natAbs ≤ Quantity.greatest

namespace Value

@[simp] theorem text_markShort (v : Value) (short : Bool) : (v.markShort short).text = v.text := by
  cases v <;> rfl

@[simp] theorem markShort_markShort (v : Value) (short short' : Bool) :
    (v.markShort short).markShort short' = v.markShort short' := by
  cases v <;> rfl

/-- A value keeps its mark exactly if the mark shows. -/
theorem isShortSymbol_markShort_and (v : Value) (shown : Bool) :
    (v.markShort (shown && v.isShortSymbol)).isShortSymbol = (shown && v.isShortSymbol) := by
  cases v with
  | const v => cases shown <;> rfl
  | symbol r => rfl

/-- The text of a value stands for it, a mark aside. -/
theorem isSpelledBy_text {v : Value} (h : v.IsWritable) :
    (v.markShort false).IsSpelledBy v.text.toList := by
  cases v with
  | const v => exact isSpelledBy_signedHex h 1
  | symbol r => exact @isSpelledBy_reference { r with short := false } h.1 h.2 rfl

end Value

/-! ## Operands -/

namespace Operand

/-- Whether the operand can be written and read back: it belongs to an addressing form,
has a value exactly if its category takes one, and is not marked where its text would
be read as another category. -/
structure IsWritable (op : Operand) : Prop where
  legal : op.kind ≠ .illegal
  filled : op.value.isSome = op.kind.takesValue
  writable : ∀ v, op.value = some v → v.IsWritable
  unmarked : op.kind = .directMemory → ∀ v, op.value = some v → v.isShortSymbol = false

/-- The value as far as the text shows it: marked only where the category shows marks. -/
def shownValue (op : Operand) : Option Value :=
  op.value.map fun v => v.markShort (op.kind.showsShort && v.isShortSymbol)

/-- The text of an operand is read as its category and the value that it shows. -/
theorem classify_text {op : Operand} (h : op.IsWritable) :
    classify op.text.toList = .ok (op.kind, op.shownValue) := by
  obtain ⟨kind, value, span⟩ := op
  cases value with
  | none =>
    have htakes : kind.takesValue = false := h.filled.symm
    unfold text shownValue
    dsimp only
    rw [htakes, if_neg Bool.false_ne_true]
    cases kind with
    | register r => exact classify_register r
    | indexedX =>
      show classify "(X)".toList = _
      rfl
    | indexedY =>
      show classify "(Y)".toList = _
      rfl
    | illegal => exact absurd rfl h.legal
    | _ => cases htakes
  | some v =>
    have htakes : kind.takesValue = true := h.filled.symm
    have hspelled := Value.isSpelledBy_text (h.writable v rfl)
    -- the ending is one that the category can have, because memory is not marked
    have hending : (if kind.showsShort && v.isShortSymbol then ".s" else "") ∈ kind.endings ∧
        ((if kind.showsShort && v.isShortSymbol then ".s" else "") == ".s") =
          (kind.showsShort && v.isShortSymbol) := by
      have hunmarked := fun hkind => h.unmarked hkind v rfl
      cases hshort : v.isShortSymbol with
      | false =>
        rw [Bool.and_false]
        cases kind <;> first | decide | cases htakes
      | true =>
        rw [hshort] at hunmarked
        cases kind <;> first | decide | cases hunmarked rfl | cases htakes
    have hread := classify_spell htakes hspelled hending.1
    rw [hending.2, Value.markShort_markShort] at hread
    exact hread

/-- The text of an operand is read, wherever it stands, as an operand of its category with
the value that it shows. -/
theorem parse_text {op : Operand} (h : op.IsWritable) (span : Span) :
    parse op.text.toList span = .ok { kind := op.kind, value := op.shownValue, span } := by
  rw [parse, classify_text h]

end Operand

end Stm8
