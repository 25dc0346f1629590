import Stm8.Proofs.Assembler.Pending
import Stm8.Proofs.Operand.Bounds

/-!
# How large the sums of requests become

A request adds the value of its symbol to an addend, and subtracts its own place if it is
relative. The addend of a request that was read from text is a quantity, and an address is
small, but nobody tests their sum (`exists_sum_not_fits`):

> `sums_of_pending`: the sums are quantities as long as the addend keeps away from the ends
> of the range by an address and the length of the code. Nearer to the ends they may leave
> the range, and then the number that is reported is wrong. A number that is put into code
> does not get wrong by that: the sum modulo 2^64 is refused whenever the sum is.
-/

namespace Stm8

/-- A request asks for the sum of a value and its addend, or their distance from the end
of its field. -/
theorem Relocation.sum_cases (r : Relocation) (base : UInt32) (target : Int) :
    r.sum base target = target + r.addend ∨
      r.sum base target = target + r.addend - (base.toNat + r.offset + 1) := by
  unfold Relocation.sum
  split
  · exact Or.inr rfl
  · exact Or.inl rfl

/-! ## Pieces -/

namespace Piece

/-- Whether the addends of the requests are quantities. -/
def IsBounded (p : Piece) : Prop :=
  ∀ r ∈ p.relocations, Quantity.fits r.addend = true

theorem isBounded_concat {ps : List Piece} (h : ∀ p ∈ ps, p.IsBounded) :
    (concat ps).IsBounded := by
  intro r hr
  obtain ⟨p, hp, r', hr', offset, rfl⟩ := exists_of_mem_concat hr
  exact h p hp r' hr'

theorem isBounded_ofCell (c : Cell) {v : Value} (h : v.IsBounded) (span : Span) :
    (ofCell c v span).IsBounded := by
  cases v with
  | const v => exact fun r hr => absurd hr List.not_mem_nil
  | symbol s =>
    intro r hr
    obtain rfl := List.mem_singleton.mp hr
    exact h

/-- The addends of an instruction are those of its operands. -/
theorem isBounded_ofEncoding {f : Form} {ops : List Operand} {e : Encoding}
    (he : f.encode ops = .ok e) (h : ∀ op ∈ ops, ∀ v, op.value = some v → v.IsBounded) :
    (ofEncoding e).IsBounded := by
  intro r hr
  rw [show (ofEncoding e).relocations = _ from (Form.hasLayout_of_encode he).2.relocations] at hr
  obtain ⟨s, hs, at', hr⟩ := exists_of_mem_requestsFrom hr
  have hop : s.2 ∈ ops := (List.of_mem_zip (f.mem_emission.mp hs)).2
  rcases s.requests_cases (f.opcodeWidth - 1) at' with
    hnone | ⟨ref, q, hv, -, -, haddend, -, hrequest⟩
  · rw [hnone] at hr
    cases hr
  · rw [hrequest, List.mem_singleton] at hr
    rw [hr, haddend]
    exact h s.2 hop (.symbol ref) hv

end Piece

theorem Cell.isBounded_of_readValues {parts : List Part} :
    ∀ {values : List (Value × Span)}, readValues parts = .ok values →
      ∀ x ∈ values, x.1.IsBounded := by
  induction parts with
  | nil =>
    intro values h
    injection h with h
    rw [← h]
    exact fun x hx => absurd hx List.not_mem_nil
  | cons p parts ih =>
    intro values h
    unfold readValues at h
    cases hv : Value.parse? p.text.toList with
    | none =>
      rw [hv] at h
      cases h
    | some v =>
      rw [hv] at h
      obtain ⟨rest, hrest, h⟩ := bind_eq_ok.mp h
      injection h with h
      rw [← h, List.forall_mem_cons]
      exact ⟨Value.isBounded_of_parse? hv, ih hrest⟩

theorem isBounded_of_readOperands {parts : List Part} :
    ∀ {ops : List Operand}, readOperands parts = .ok ops →
      ∀ op ∈ ops, ∀ v, op.value = some v → v.IsBounded := by
  induction parts with
  | nil =>
    intro ops h
    injection h with h
    rw [← h]
    exact fun op hop => absurd hop List.not_mem_nil
  | cons p parts ih =>
    intro ops h
    obtain ⟨op, hop, h⟩ := bind_eq_ok.mp h
    obtain ⟨rest, hrest, h⟩ := bind_eq_ok.mp h
    injection h with h
    rw [← h, List.forall_mem_cons]
    exact ⟨fun v => Operand.isBounded_of_parse hop, ih hrest⟩

/-- The addends of a command that was read are quantities. -/
theorem Piece.isBounded_ofCommand {c : Command} {p : Piece} (h : ofCommand c = .ok p) :
    p.IsBounded := by
  unfold ofCommand at h
  split at h
  · unfold ofDirective at h
    split at h
    · cases h
    · next cell _ =>
      split at h
      · cases h
      · obtain ⟨values, hvalues, rfl⟩ := map_eq_ok.mp h
        refine isBounded_concat fun p hp => ?_
        obtain ⟨x, hx, rfl⟩ := List.mem_map.mp hp
        exact isBounded_ofCell cell (Cell.isBounded_of_readValues hvalues x hx) x.2
  · obtain ⟨ops, f, e, hops, -, he, rfl⟩ := ofInstruction_eq_ok.mp h
    exact isBounded_ofEncoding he (isBounded_of_readOperands hops)

namespace Assembler

/-! ## Addends of a program -/

/-- Whether the addends of the requests are quantities. -/
def IsBounded (a : Assembler) : Prop :=
  ∀ r ∈ a.relocations, Quantity.fits r.addend = true

theorem relocations_note (a : Assembler) (offset : Nat) (text : String) :
    (a.note offset text).relocations = a.relocations := by
  unfold note
  split <;> rfl

theorem isBounded_extend {a : Assembler} (ha : a.IsBounded) {p : Piece} (hp : p.IsBounded) :
    (a.extend p).IsBounded := by
  intro r hr
  rcases List.mem_append.mp hr with hr | hr
  · exact ha r hr
  · obtain ⟨r', hr', rfl⟩ := List.mem_map.mp hr
    exact hp r' hr'

theorem isBounded_statement {a : Assembler} (ha : a.IsBounded) (text : List Char)
    (number offset : Nat) : (a.statement text number offset).1.IsBounded := by
  obtain ⟨labels, labelIndex, hnext | ⟨c, p, hp, hnext⟩⟩ := a.statement_frame text number offset
  · rw [hnext]
    exact ha
  · rw [hnext, IsBounded, relocations_note]
    exact isBounded_extend ha (Piece.isBounded_ofCommand hp)

theorem isBounded_emitLines {lines : List (List Char)} :
    ∀ {a : Assembler}, a.IsBounded → (a.emitLines lines).1.IsBounded := by
  induction lines with
  | nil => exact fun ha => ha
  | cons line lines ih =>
    intro a ha
    exact ih (a := (a.emitLine line).1) (isBounded_statement ha _ _ _)

end Assembler

/-- Whether the call hands over no operands that were built and not read. -/
def Step.isRead : Step → Bool
  | instruction _ _ => false
  | _ => true

namespace Assembler

/-- In a program that was read, the addends are quantities. -/
theorem isBounded_run {steps : List Step} :
    ∀ {a : Assembler}, a.IsBounded → (∀ step ∈ steps, step.isRead = true) →
      (a.run steps).IsBounded := by
  induction steps with
  | nil => exact fun ha _ => ha
  | cons step steps ih =>
    intro a ha hread
    rw [List.forall_mem_cons] at hread
    refine ih (a := (a.perform step).1) ?_ hread.2
    cases step with
    | base address => exact ha
    | external name value => exact ha
    | listing => exact ha
    | emit source => exact isBounded_emitLines ha
    | label name =>
      show (a.defineLabel name).1.IsBounded
      unfold defineLabel
      cases a.labelIndex[name]? <;> exact ha
    | instruction m ops => cases hread.1
    | data bytes => exact ha
    | word value => exact ha

/-! ## Values of symbols -/

/-- Whether the labels stand in front of bytes of the program, or at its end. -/
def LabelsInside (a : Assembler) : Prop :=
  ∀ label ∈ a.labels, label.offset ≤ a.code.length

theorem isPreserved_labelsInside : IsPreserved LabelsInside where
  setBase := fun ha _ => ha
  defineExternal := fun ha _ _ => ha
  enableListing := fun ha => ha
  defineLabel := by
    intro a ha name span
    unfold defineLabel
    split
    · exact ha
    · intro label hlabel
      rcases List.mem_append.mp hlabel with hlabel | hlabel
      · exact ha label hlabel
      · rw [List.mem_singleton.mp hlabel]
  data := by
    intro a ha bytes label hlabel
    exact Nat.le_trans (ha label hlabel) (List.length_append ▸ Nat.le_add_right _ _)
  fill := by
    intro a ha cell value span
    rw [fill_eq]
    intro label hlabel
    exact Nat.le_trans (ha label hlabel) (List.length_append ▸ Nat.le_add_right _ _)
  place := by
    intro a f ops e ha _ _ label hlabel
    exact Nat.le_trans (ha label hlabel) (List.length_append ▸ Nat.le_add_right _ _)
  note := by
    intro a ha offset text
    unfold note
    split <;> exact ha
  emitLine := fun ha => ha

/-- The value of a symbol is an address, or reaches as far behind one as there is code. -/
theorem symbolValue?_bounds {a : Assembler} (ha : a.Reachable) {name : String} {target : Int}
    (h : a.symbolValue? name = some target) :
    0 ≤ target ∧ target < 0x100000000 + a.code.length := by
  have hinside : a.LabelsInside :=
    isPreserved_labelsInside.of_reachable (fun label hlabel => absurd hlabel List.not_mem_nil) ha
  have hbase := a.base.toNat_lt
  unfold symbolValue? at h
  split at h
  · next i _ =>
    have hoffset : (a.labels[i]?.getD default).offset ≤ a.code.length := by
      cases hlabel : a.labels[i]? with
      | none => exact Nat.zero_le _
      | some label => exact hinside label (List.mem_of_getElem? hlabel)
    injection h with h
    omega
  · obtain ⟨v, -, rfl⟩ := Option.map_eq_some_iff.mp h
    have hv := v.toNat_lt
    omega

/-! ## Sums -/

/-- **The sums of requests are quantities, unless their addends are extreme.** In a program
that was read from text, the addend of every request is a quantity, and so is the one that
goes into an object file, unless the request is relative and its addend is the smallest
quantity. The request asks for a sum of quantities, which is one itself as long as the
addend keeps away from the ends of the range by an address and the length of the code. If
it does not, code of less than 2^32 bytes does not get wrong by it: a quantity that is the
same as the sum modulo 2^64, such as the number that is computed, is in the range of the
field exactly if the sum is. -/
theorem sums_of_pending {steps : List Step} (hread : ∀ step ∈ steps, step.isRead = true)
    {r : Relocation} (hr : r ∈ (run {} steps).relocations) :
    let a := run {} steps
    let margin : Int := 0x100000000 + a.code.length
    Quantity.fits r.addend = true ∧
    (Quantity.fits r.addendFromStart = false ↔
      r.kind.isRelative = true ∧ r.addend = Quantity.least) ∧
    ∀ target, a.symbolValue? r.symbol = some target →
      (Quantity.least + margin ≤ r.addend → r.addend ≤ Quantity.greatest - margin →
        Quantity.fits (target + r.addend) = true ∧
        Quantity.fits (r.sum a.base target) = true) ∧
      (a.code.length < 0x100000000 → ∀ w : Int, Quantity.fits w = true →
        w % 0x10000000000000000 = r.sum a.base target % 0x10000000000000000 →
        (r.kind.range.1 ≤ w ∧ w ≤ r.kind.range.2 ↔
          r.kind.range.1 ≤ r.sum a.base target ∧
            r.sum a.base target ≤ r.kind.range.2)) := by
  intro a margin
  have ha : a.Reachable := ⟨steps, rfl⟩
  have haddend : Quantity.fits r.addend = true :=
    isBounded_run (fun _ hr => absurd hr List.not_mem_nil) hread r hr
  have hbounds := Quantity.fits_iff.mp haddend
  refine ⟨haddend, ?_, fun target htarget => ?_⟩
  · unfold Relocation.addendFromStart Quantity.least
    rw [← Bool.not_eq_true, Quantity.fits_iff]
    cases r.kind.isRelative with
    | false => simpa using hbounds
    | true =>
      rw [if_pos rfl]
      constructor
      · intro hout
        exact ⟨rfl, by omega⟩
      · rintro ⟨-, hleast⟩
        omega
  · have hinside : r.offset + r.kind.size ≤ a.code.length := (isPending_of_reachable ha).inside r hr
    have hbase := a.base.toNat_lt
    obtain ⟨hleast, hgreatest⟩ := symbolValue?_bounds ha htarget
    have hsize : 0 < r.kind.size := by cases r.kind <;> decide
    have hrange : -128 ≤ r.kind.range.1 ∧ r.kind.range.2 ≤ 0xFFFFFFFF := by
      cases r.kind <;> decide
    have hsum := r.sum_cases a.base target
    constructor
    · intro hlow hhigh
      simp only [Quantity.fits_iff, Quantity.least, Quantity.greatest] at hlow hhigh ⊢
      omega
    · intro hlength w hw hsame
      rw [Quantity.fits_iff] at hw
      omega

/-- The largest addend that keeps away from the end of the range, and the largest address. -/
theorem sums_of_pending_atMargin :
    let a := run {} [.external "port" 0xFFFFFFFF, .emit ".dw port+9223372032559808509"]
    ∃ r ∈ a.relocations, r.addend = 9223372032559808509 ∧
      a.symbolValue? r.symbol = some 0xFFFFFFFF ∧
      Quantity.fits (0xFFFFFFFF + r.addend) = true := by
  intro a
  let request : Relocation := ⟨0, .abs16, "port", 9223372032559808509, ⟨1, 5, 4, 24⟩⟩
  have hfacts : a.relocations = [request] ∧ a.code.length = 2 ∧
      a.symbolValue? "port" = some 0xFFFFFFFF := by
    decide +kernel
  obtain ⟨hrelocations, hlength, hvalue⟩ := hfacts
  have hmem : request ∈ a.relocations := by
    rw [hrelocations]
    exact List.mem_singleton_self _
  obtain ⟨-, -, hsums⟩ := @sums_of_pending
    [.external "port" 0xFFFFFFFF, .emit ".dw port+9223372032559808509"] (by decide) request hmem
  obtain ⟨hclear, -⟩ := hsums 0xFFFFFFFF hvalue
  rw [show (run {} _).code.length = 2 from hlength] at hclear
  exact ⟨request, hmem, rfl, hvalue, (hclear (by decide) (by decide)).1⟩

/-- Nearer to the ends the sums leave the range and wrap around: that of a symbol and its
addend, and the addend of a branch in an object file. -/
theorem exists_sum_not_fits :
    (∃ r ∈ (run {} [.external "x" 1, .emit ".byte x+9223372036854775807"]).relocations,
      (run {} [.external "x" 1, .emit ".byte x+9223372036854775807"]).symbolValue? r.symbol =
        some 1 ∧ Quantity.fits (1 + r.addend) = false ∧ r.value 0 1 = -9223372036854775808) ∧
    ∃ r ∈ (run {} [.emit "jra x-9223372036854775807-1"]).link.leftover,
      Quantity.fits r.addendFromStart = false ∧ r.elfAddend = 9223372036854775807 := by
  decide +kernel

end Assembler

end Stm8
