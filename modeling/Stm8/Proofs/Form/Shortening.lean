import Stm8.Instruction.Printer
import Stm8.Proofs.Encoding.BitNumber

/-!
# Which form a written instruction takes

Of the slots of a form, only the offsets and pointers of two bytes have a short
counterpart that takes the same operand (`Mode.short?`). Which form is selected for
operands that are written for the slots of `f` therefore depends on one bit of
information: whether the value in such a slot fits eight bits. With sample operands
for both cases (`Form.samples`) the table is run through once:

> `select_samples`: selection finds a form with the slots of `f`, shortened if the
> value fits, and it has the opcode of `f` if there was nothing to shorten and is
> shorter than `f` if there was.
-/

namespace Stm8

/-! ## Short counterparts -/

namespace Mode

/-- The slot that takes the same operands as long as they fit eight bits. -/
def short? : Mode → Option Mode
  | longOffX => some shortOffX
  | longOffY => some shortOffY
  | longPtr => some shortPtr
  | longPtrX => some shortPtrX
  | longPtrY => some shortPtrY
  | _ => none

/-- The slot, or its short counterpart for an operand that fits eight bits. -/
def shortened (m : Mode) (short : Bool) : Mode :=
  if short then m.short?.getD m else m

/-- Whether the slot is a long one of a category in which the value decides between
short and long. -/
def isIndirect (m : Mode) : Bool :=
  1 < m.width && m.kind.showsShort && m.kind != .directMemory

/-- An operand for the slot, with a value that fits eight bits or, if the slot is
long, does not. -/
def sample (m : Mode) (short : Bool) : Operand where
  kind := m.kind
  value :=
    match m with
    | bit n => some (.const n.val)
    | m =>
      if m.width = 0 then none
      else some (.const (if short || m.width = 1 then 0 else 0x100))

theorem isIndirect_of_short? {m : Mode} (h : m.short?.isSome = true) : m.isIndirect = true := by
  cases m <;> first | rfl | cases h

theorem shortened_of_short? {m : Mode} (h : m.short? = none) (short : Bool) :
    m.shortened short = m := by
  unfold shortened
  rw [h]
  cases short <;> rfl

end Mode

namespace Form

/-! ## Facts checked on the table -/

/-- Sample operands for the slots of the form. -/
def samples (f : Form) (short : Bool) : List Operand :=
  f.modes.map (Mode.sample · short)

/-- Whether `g`, filled with the sample operands of `f`, has the slots of `f` with or
without shortening, and the opcode of `f` or a shorter length. -/
def isReplacedBy (f g : Form) (short : Bool) : Bool :=
  (g.filled (f.samples short)).modes == f.modes.map (Mode.shortened · short) &&
    g.reversed == f.reversed &&
    if f.modes.map (Mode.shortened · short) = f.modes then
      (g.filled (f.samples short)).opcode == f.opcode
    else g.length < f.length

/-- Of the forms of a family, the first one that accepts the samples of `f` takes the
place of `f`. -/
theorem select_samples :
    ∀ family ∈ families, ∀ f ∈ family.forms, ∀ short : Bool,
      (family.forms.find? (·.accepts (f.samples short))).any (f.isReplacedBy · short) = true := by
  decide +kernel

/-- A form accepts its own samples, which select its own bit number. -/
theorem own_samples :
    ∀ family ∈ families, ∀ f ∈ family.forms, ∀ short : Bool,
      f.accepts (f.samples short) = true ∧ f.filled (f.samples short) = f := by
  decide +kernel

/-- No form has two slots in which the value decides between short and long. -/
theorem indirect_slots :
    ∀ family ∈ families, ∀ f ∈ family.forms, (f.modes.filter Mode.isIndirect).length ≤ 1 := by
  decide +kernel

/-- Immediates and bit numbers, which are written alike, do not meet in a family. -/
theorem not_isImmediate_of_bit :
    ∀ family ∈ families, (∃ f ∈ family.forms, f.bit?.isSome = true) →
      ∀ f ∈ family.forms, ∀ m ∈ f.modes, m.isImmediate = false := by
  decide +kernel

/-- Every family has a mnemonic of its own. -/
theorem nodup_mnemonics : (families.map Family.mnemonic).Nodup := by
  decide +kernel

/-! ## The forms of a mnemonic -/

/-- The forms of a mnemonic are those of its family. -/
theorem filter_mnemonic {fs : List Family} (hfs : (fs.map Family.mnemonic).Nodup)
    {family : Family} (hfamily : family ∈ fs) :
    (fs.flatMap Family.forms).filter (·.mnemonic = family.mnemonic) = family.forms := by
  induction fs with
  | nil => cases hfamily
  | cons first fs ih =>
    rw [List.map_cons, List.nodup_cons] at hfs
    have hne : ∀ other ∈ fs, other.mnemonic ≠ first.mnemonic := fun other hother heq =>
      hfs.1 (heq ▸ List.mem_map_of_mem hother)
    rw [List.flatMap_cons, List.filter_append]
    rcases List.mem_cons.mp hfamily with rfl | hmem
    · have hown : family.forms.filter (·.mnemonic = family.mnemonic) = family.forms := by
        rw [List.filter_eq_self]
        intro f hf
        exact decide_eq_true (Family.mnemonic_eq hf)
      have hrest : (fs.flatMap Family.forms).filter (·.mnemonic = family.mnemonic) = [] := by
        rw [List.filter_eq_nil_iff]
        intro f hf heq
        obtain ⟨other, hother, hf⟩ := List.mem_flatMap.mp hf
        rw [decide_eq_true_iff, Family.mnemonic_eq hf] at heq
        exact hne other hother heq
      rw [hown, hrest, List.append_nil]
    · have hfirst : first.forms.filter (·.mnemonic = family.mnemonic) = [] := by
        rw [List.filter_eq_nil_iff]
        intro f hf heq
        rw [decide_eq_true_iff, Family.mnemonic_eq hf] at heq
        exact hne family hmem heq.symm
      rw [hfirst, ih hfs.2 hmem, List.nil_append]

/-- Selection looks at the forms of one family. -/
theorem resolve_of_mem {family : Family} (hfamily : family ∈ families) {f : Form}
    (hf : f ∈ family.forms) (ops : List Operand) :
    resolve f.mnemonic ops = select f.mnemonic family.forms ops := by
  have hlower : Text.lower f.mnemonic = family.mnemonic := by
    rw [Text.lower, Family.mnemonic_eq hf, Family.lower_mnemonic family hfamily,
      String.ofList_toList]
  rw [← resolve_catalog, Catalog.resolve, catalog, Catalog.forms_ofForms, hlower]
  exact congrArg (select f.mnemonic · ops) (filter_mnemonic nodup_mnemonics hfamily)

end Form

end Stm8
