import Stm8.Instruction.Printer
import Stm8.Proofs.Encoding.Layout

/-!
# Operands that fit can be encoded

`Form.accepts` lets operands without values through, because an absent value counts as a
symbol. `Form.encode` does not. What closes the gap is that an operand fits only slots of
its own category (`kind_of_fits`), and that a slot takes a value exactly if its category
does (`Mode.takesValue_kind`):

> `exists_encode_of_accepts`: operands that a form of the table accepts are encoded by it,
> as long as each of them has the value that its category takes.
-/

namespace Stm8

/-- Whether the operand has a value if its category takes one. -/
def Operand.IsFilled (op : Operand) : Prop :=
  op.kind.takesValue = true → op.value.isSome = true

instance (op : Operand) : Decidable op.IsFilled :=
  inferInstanceAs (Decidable (_ → _))

/-- A slot takes a value exactly if the category of its operands does. -/
theorem Mode.takesValue_kind (m : Mode) : m.kind.takesValue = m.takesValue := by
  cases m <;> rfl

/-- A slot takes operands of its own category only. -/
theorem kind_of_fits {op : Operand} {m : Mode} (h : op.fits m = true) : op.kind = m.kind := by
  unfold Operand.fits at h
  cases hkind : op.kind with
  | register r =>
    rw [hkind] at h
    cases m with
    | reg r' => rw [beq_iff_eq.mp (show (r == r') = true from h), Mode.kind]
    | _ => cases h
  | _ =>
    rw [hkind] at h
    cases m <;> first | rfl | cases h

namespace Form

/-- A form accepts one operand for each of its slots. -/
theorem length_of_accepts {f : Form} {ops : List Operand} (h : f.accepts ops = true) :
    ops.length = f.modes.length := by
  rw [accepts, Bool.and_eq_true, beq_iff_eq] at h
  exact h.1.symm

/-- Every slot takes the operand that stands in its place. -/
theorem fits_of_accepts {f : Form} {ops : List Operand} (h : f.accepts ops = true) :
    ∀ s ∈ f.slots ops, s.2.fits s.1 = true := by
  rw [accepts, Bool.and_eq_true, List.all_eq_true] at h
  exact h.2

/-- The categories of operands are those of the slots that take them. -/
theorem map_kind_of_accepts {f : Form} {ops : List Operand} (h : f.accepts ops = true) :
    f.modes.map Mode.kind = ops.map Operand.kind := by
  have hlength := length_of_accepts h
  have hkinds : (f.slots ops).map (fun s => s.1.kind) = (f.slots ops).map (fun s => s.2.kind) :=
    List.map_congr_left fun s hs => (kind_of_fits (fits_of_accepts h s hs)).symm
  calc f.modes.map Mode.kind
      = ((f.slots ops).map Prod.fst).map Mode.kind := by
        rw [slots, List.map_fst_zip (by omega)]
    _ = ((f.slots ops).map Prod.snd).map Operand.kind := by
        rw [List.map_map, List.map_map]
        exact hkinds
    _ = ops.map Operand.kind := by
        rw [slots, List.map_snd_zip (by omega)]

/-- Operands that are accepted pass the check if they have their values. -/
theorem check_of_accepts {f : Form} {ops : List Operand} (h : f.accepts ops = true)
    (hvalues : ∀ op ∈ ops, op.IsFilled) : f.check ops = .ok () := by
  rw [check_eq_ok_iff]
  refine ⟨length_of_accepts h, fun s hs => ⟨fun htakes => ?_, fits_of_accepts h s hs⟩⟩
  refine hvalues s.2 (List.of_mem_zip hs).2 ?_
  rw [kind_of_fits (fits_of_accepts h s hs), Mode.takesValue_kind]
  exact htakes

/-- Operands that a form of the table accepts are encoded by it if they have their
values. -/
theorem exists_encode_of_accepts {f : Form} (hf : f ∈ all) {ops : List Operand}
    (h : f.accepts ops = true) (hvalues : ∀ op ∈ ops, op.IsFilled) :
    ∃ e, f.encode ops = .ok e :=
  exists_encode (Nat.le_trans (length_le f hf) (by decide)) (check_of_accepts h hvalues)

end Form

end Stm8
