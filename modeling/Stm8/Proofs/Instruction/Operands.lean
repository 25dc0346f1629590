import Stm8.Line
import Stm8.Proofs.BigEndian
import Stm8.Proofs.Operand.Spelling

/-!
# The operands of an instruction are read as they are written

The text of every slot, whatever number stands in its field and whatever name that
number has, is read as the category of the slot and the value that was written:

> `classify_operandText`, and for all slots together `readOperands_written`
-/

namespace Stm8

open Stm8.Text

/-- The value of a number in a field: the symbol of its name, or the number itself. -/
def fieldValue (field : Nat) : Option String → Value
  | some name => .ofName name
  | none => .const field

namespace Mode

/-- The value that is written in a slot of this mode. -/
def written (m : Mode) (field : Nat) (name : Option String) : Option Value :=
  match m with
  | bit n => some (.const n.val)
  | relative => some (.const (readSigned (UInt8.ofNat field)))
  | m =>
    if m.width = 0 then none
    else some ((fieldValue field name).markShort (m.ending name.isSome == ".s"))

/-- The text of a value in a field, without an ending. -/
theorem isSpelledBy_field {field : Nat} (hfield : field < 2 ^ 24) (digits : Nat)
    {name : Option String} (hname : ∀ n, name = some n → IsReferable n) :
    (fieldValue field name).IsSpelledBy (name.getD ("0x" ++ hex digits field)).toList := by
  cases name with
  | none =>
    have hfits : (field : Int) ≤ Quantity.greatest := by
      unfold Quantity.greatest
      omega
    exact isSpelledBy_hex hfits digits
  | some n => exact isSpelledBy_name (hname n rfl)

theorem natAbs_readSigned (b : UInt8) : ((readSigned b).natAbs : Int) ≤ Quantity.greatest := by
  have hb := b.toNat_lt
  unfold readSigned Quantity.greatest
  split <;> omega

/-- The ending of a slot is one that its category can have. -/
theorem ending_mem (m : Mode) (named : Bool) : m.ending named ∈ m.kind.endings := by
  cases m with
  | bit n | reg r => exact List.mem_singleton_self _
  | _ => cases named <;> decide

/-- The text of a slot is read as what was written. -/
theorem classify_operandText (m : Mode) {field : Nat} (hfield : field < 2 ^ 24)
    {name : Option String} (hname : ∀ n, name = some n → IsReferable n) :
    Operand.classify (m.operandText field name).toList = .ok (m.kind, m.written field name) := by
  have hending := m.ending_mem name.isSome
  have hbody := isSpelledBy_field hfield (2 * m.width) hname
  cases m with
  | bit n =>
    have hplain : ∀ n : Fin 8, ∀ c ∈ (decimal n.val).toList, isPlain c = true := by decide
    simp only [operandText, kind, Operand.Kind.spell, String.toList_append]
    exact Operand.classify_immediate (hplain n) (parse?_bit n)
  | relative =>
    exact Operand.classify_direct
      (isSpelledBy_displacement (natAbs_readSigned (UInt8.ofNat field)))
  | reg r => exact Operand.classify_register r
  | indX =>
    show Operand.classify "(X)".toList = _
    rfl
  | indY =>
    show Operand.classify "(Y)".toList = _
    rfl
  | _ => exact Operand.classify_spell rfl hbody hending

end Mode

/-! ## All slots -/

/-- A slot as it is written: its mode, the number in its field, the name that the
number has, and the place of its text. -/
structure WrittenSlot where
  mode : Mode
  field : Nat
  name : Option String
  span : Span

namespace WrittenSlot

/-- The text and its place. -/
def part (s : WrittenSlot) : Part :=
  ⟨s.mode.operandText s.field s.name, s.span⟩

/-- The operand that is written. -/
def operand (s : WrittenSlot) : Operand :=
  { kind := s.mode.kind, value := s.mode.written s.field s.name, span := s.span }

/-- Whether the number fits its field and the name can be told from other texts. -/
structure IsValid (s : WrittenSlot) : Prop where
  fits : s.field < 256 ^ s.mode.width
  referable : ∀ n, s.name = some n → IsReferable n

theorem field_lt {s : WrittenSlot} (h : s.IsValid) : s.field < 2 ^ 24 := by
  have hwidth : 256 ^ s.mode.width ≤ 256 ^ 3 := Nat.pow_le_pow_right (by decide) s.mode.width_le
  exact Nat.lt_of_lt_of_le h.fits hwidth

theorem parse_part {s : WrittenSlot} (h : s.IsValid) :
    Operand.parse s.part.text.toList s.part.span = .ok s.operand := by
  show Operand.parse (s.mode.operandText s.field s.name).toList s.span = _
  rw [Operand.parse, s.mode.classify_operandText (field_lt h) h.referable]
  rfl

end WrittenSlot

/-- The operands of an instruction are read as they are written, wherever their
texts stand. -/
theorem readOperands_written {slots : List WrittenSlot} (h : ∀ s ∈ slots, s.IsValid) :
    readOperands (slots.map WrittenSlot.part) = .ok (slots.map WrittenSlot.operand) := by
  induction slots with
  | nil => rfl
  | cons s slots ih =>
    rw [List.forall_mem_cons] at h
    rw [List.map_cons, readOperands, bind_eq_ok]
    refine ⟨s.operand, WrittenSlot.parse_part h.1, ?_⟩
    rw [bind_eq_ok]
    exact ⟨_, ih h.2, rfl⟩

/-- Parts whose texts are those of some slots are these slots as they are written. -/
theorem exists_written (name : Mode × Nat → Option String) :
    ∀ (slots : List (Mode × Nat)) (parts : List Part),
      parts.map Part.text = slots.map (fun s => s.1.operandText s.2 (name s)) →
      ∃ written : List WrittenSlot, written.map WrittenSlot.part = parts ∧
        written.map (fun s => (s.mode, s.field)) = slots ∧
        ∀ s ∈ written, s.name = name (s.mode, s.field) := by
  intro slots
  induction slots with
  | nil =>
    intro parts h
    rw [List.map_nil, List.map_eq_nil_iff] at h
    exact ⟨[], h.symm, rfl, by simp⟩
  | cons s slots ih =>
    intro parts h
    cases parts with
    | nil => cases h
    | cons p parts =>
      rw [List.map_cons, List.map_cons, List.cons.injEq] at h
      obtain ⟨written, hparts, hslots, hnames⟩ := ih parts h.2
      refine ⟨⟨s.1, s.2, name s, p.span⟩ :: written, ?_, ?_, ?_⟩
      · rw [List.map_cons, hparts, WrittenSlot.part, ← h.1]
      · rw [List.map_cons, hslots]
      · rw [List.forall_mem_cons]
        exact ⟨rfl, hnames⟩

end Stm8
