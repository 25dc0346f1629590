import Stm8.Proofs.Assembler.Linking

/-!
# Where values are used

A value in a statement is used in the field of a slot, in the opcode or in a cell of a
directive: there it is right or wrong. A `Use` is a value with that place.

> `hasUses_ofCommand`: what the piece of a command notes and asks for is what the values
> of the command note and ask for, one after another.
> `hasUses_concat`: the same for all lines of a program.
-/

namespace Stm8

/-- A value with the place in the code that it is put into. -/
structure Use where
  /-- The value. -/
  value : Value
  /-- How the value of a symbol is put there. -/
  kind : Relocation.Kind
  /-- The least and the greatest constant that can be put there. -/
  range : Int × Int
  /-- The first byte of the place, counted from the start of the code. -/
  offset : Nat
  /-- Where the value stands in the source. -/
  span : Span
  deriving DecidableEq, Repr, Inhabited

namespace Use

/-! ## One value -/

/-- The use in code that has `n` more bytes in front. -/
def shift (u : Use) (n : Nat) : Use :=
  { u with offset := n + u.offset }

/-- The problem of a constant that is out of range. -/
def note? (u : Use) : Option Problem :=
  match u.value with
  | .const v =>
    if v < u.range.1 || u.range.2 < v then some (.outOfRange v u.range.1 u.range.2 u.span)
    else none
  | .symbol _ => none

/-- The request for a symbol. -/
def request? (u : Use) : Option Relocation :=
  match u.value with
  | .const _ => none
  | .symbol r => some ⟨u.offset, u.kind, r.name, r.addend, u.span⟩

/-- The number that stands for a symbol with the value `target`: its sum with the addend,
or the distance of that from the end of the field. -/
def number (u : Use) (base : UInt32) (target addend : Int) : Int :=
  if u.kind.isRelative then target + addend - (base.toNat + (u.offset + u.kind.size))
  else target + addend

/-- Whether the value can be put there: a constant that is in range, or a symbol that has a
value whose number is. -/
def IsRight (base : UInt32) (value? : String → Option Int) (u : Use) : Prop :=
  match u.value with
  | .const v => u.range.1 ≤ v ∧ v ≤ u.range.2
  | .symbol r =>
    ∃ target, value? r.name = some target ∧
      u.kind.range.1 ≤ u.number base target r.addend ∧
      u.number base target r.addend ≤ u.kind.range.2

/-- The problem of a symbol whose number is out of range. -/
def failure? (base : UInt32) (value? : String → Option Int) (u : Use) : Option Problem :=
  match u.value with
  | .const _ => none
  | .symbol r =>
    (value? r.name).bind fun target =>
      let v := u.number base target r.addend
      if v < u.kind.range.1 || u.kind.range.2 < v then
        some (if u.kind.isRelative then .branchOutOfRange r.name v u.kind.range.2 u.span
          else .outOfRange v u.kind.range.1 u.kind.range.2 u.span)
      else none

/-- The problem of a symbol without a value. -/
def missing? (value? : String → Option Int) (u : Use) : Option Problem :=
  match u.value with
  | .const _ => none
  | .symbol r => if (value? r.name).isNone then some (.undefinedSymbol r.name u.span) else none

theorem request?_shift (u : Use) (n : Nat) :
    (u.shift n).request? = u.request?.map (·.shift n) := by
  obtain ⟨value, kind, range, offset, span⟩ := u
  cases value <;> rfl

section

variable {base : UInt32} {value? : String → Option Int}

/-- A value is right if none of the three problems is there. -/
theorem isRight_iff (u : Use) :
    u.IsRight base value? ↔
      u.note? = none ∧ u.failure? base value? = none ∧ u.missing? value? = none := by
  unfold IsRight note? failure? missing?
  cases u.value with
  | const v => simp
  | symbol r => cases hvalue : value? r.name <;> simp [hvalue]

/-- Unless its request overflows, the number that is written for a symbol is that of the
use. -/
theorem value_request? {u : Use} {q : Relocation} {target : Int} (h : u.request? = some q)
    (hsum : q.overflows base target = false) :
    q.value base target = u.number base target q.addend := by
  obtain ⟨value, kind, range, offset, span⟩ := u
  rw [Relocation.value_of_not_overflows hsum]
  cases value with
  | const v => cases h
  | symbol r =>
    obtain rfl := Option.some.inj h
    cases kind <;> rfl

/-- A request that cannot be carried out is one of a symbol whose number is out of range,
unless adding up overflows. -/
theorem problem?_request? {u : Use}
    (h : ∀ q target, u.request? = some q → value? q.symbol = some target →
      q.overflows base target = false) :
    u.request?.bind (·.problem? base value?) = u.failure? base value? := by
  obtain ⟨value, kind, range, offset, span⟩ := u
  cases value with
  | const v => rfl
  | symbol r =>
    show Relocation.problem? _ base value? = (value? r.name).bind _
    unfold Relocation.problem?
    dsimp only
    cases hvalue : value? r.name with
    | none => rfl
    | some target =>
      have hnumber := value_request? (u := ⟨.symbol r, kind, range, offset, span⟩) rfl
        (h _ target rfl hvalue)
      dsimp only [Option.bind_some] at hnumber ⊢
      rw [hnumber]
      cases kind <;> rfl

/-- A request that is left over is one of a symbol without a value. -/
theorem leftover_request? (u : Use) :
    (u.request?.filter fun q => (value? q.symbol).isNone).map
        (fun q => Problem.undefinedSymbol q.symbol q.span) = u.missing? value? := by
  obtain ⟨value, kind, range, offset, span⟩ := u
  cases value with
  | const v => rfl
  | symbol r =>
    unfold request? missing?
    dsimp only
    cases hvalue : value? r.name with
    | none =>
      rw [Option.filter_some, hvalue]
      rfl
    | some target =>
      rw [Option.filter_some, hvalue]
      rfl

end

end Use

/-! ## The values of a statement -/

/-- The use of the operand in a slot whose field begins at `start`, where the last byte of
the opcode stands at `last`. -/
def Slot.use? (last start : Nat) (s : Slot) : Option Use :=
  match s.2.value, s.1.relocation? with
  | some value, some kind =>
    some ⟨value, kind, s.1.range, if s.1.bit?.isSome then last else start, s.2.span⟩
  | _, _ => none

/-- The uses in consecutive slots, the first of whose fields begins at `start`. -/
def slotUses (last start : Nat) : List Slot → List Use
  | [] => []
  | s :: rest => (s.use? last start).toList ++ slotUses last (start + s.1.width) rest

/-- The uses in an instruction, in the order of its fields. -/
def Form.uses (f : Form) (ops : List Operand) : List Use :=
  slotUses (f.opcodeWidth - 1) f.opcodeWidth (f.emission (f.slots ops))

/-- The uses in consecutive cells, the first of which begins at `start`. -/
def Cell.uses (c : Cell) (start : Nat) : List (Value × Span) → List Use
  | [] => []
  | (v, span) :: rest => ⟨v, c.relocation, c.range, start, span⟩ :: c.uses (start + c.size) rest

/-- The uses in a command; there are none in one that is rejected. -/
def Command.uses (c : Command) : List Use :=
  if c.isDirective then
    match Cell.named? c.name.text, Cell.readValues c.operands with
    | some cell, .ok values => cell.uses 0 values
    | _, _ => []
  else
    match readOperands c.operands with
    | .error _ => []
    | .ok ops =>
      match resolve c.name.text ops with
      | .error _ => []
      | .ok f => f.uses ops

/-- The uses in a line. -/
def Line.uses (l : Line) : List Use :=
  match l.command with
  | none => []
  | some c => c.uses

/-- The uses in lines, the first of which puts its piece behind `start` bytes. -/
def usesFrom (start : Nat) : List Entry → List Use
  | [] => []
  | (line, piece) :: entries =>
    line.uses.map (·.shift start) ++ usesFrom (start + piece.code.length) entries

/-! ## Slots -/

namespace Slot

theorem notes_eq (last start : Nat) (s : Slot) :
    s.notes = (s.use? last start).toList.filterMap Use.note? := by
  have htakes := Mode.isSome_relocation? s.1
  unfold notes use?
  cases s.2.value with
  | none => rfl
  | some value =>
    cases hkind : s.1.relocation? with
    | none =>
      rw [hkind] at htakes
      rw [← htakes]
      cases value <;> rfl
    | some kind =>
      rw [hkind] at htakes
      rw [← htakes]
      cases value with
      | symbol r => rfl
      | const v =>
        simp only [Option.isSome_some, Bool.true_and, Option.toList_some, Use.note?,
          List.filterMap_cons, List.filterMap_nil]
        split <;> rfl

theorem requests_eq (last start : Nat) (s : Slot) :
    s.requests last start = (s.use? last start).toList.filterMap Use.request? := by
  unfold requests use?
  cases s.2.value with
  | none => rfl
  | some value => cases value <;> cases s.1.relocation? <;> rfl

end Slot

/-- What slots note is what their values note. -/
theorem notes_slotUses (last start : Nat) (slots : List Slot) :
    slots.flatMap Slot.notes = (slotUses last start slots).filterMap Use.note? := by
  induction slots generalizing start with
  | nil => rfl
  | cons s slots ih =>
    rw [List.flatMap_cons, slotUses, List.filterMap_append, ← s.notes_eq, ih]

/-- What slots ask for is what their values ask for. -/
theorem requests_slotUses {last : Nat} {slots : List Slot} :
    ∀ {start : Nat}, (∀ s ∈ slots, s.IsFilled) →
      requestsFrom last start slots = (slotUses last start slots).filterMap Use.request? := by
  induction slots with
  | nil => exact fun _ => rfl
  | cons s slots ih =>
    intro start hfilled
    rw [List.forall_mem_cons] at hfilled
    rw [requestsFrom, slotUses, List.filterMap_append, ← s.requests_eq,
      Slot.length_field hfilled.1, ih hfilled.2]

/-- The values of a directive move along with its cells. -/
theorem Cell.uses_shift (c : Cell) (n start : Nat) (values : List (Value × Span)) :
    c.uses (n + start) values = (c.uses start values).map (·.shift n) := by
  induction values generalizing start with
  | nil => rfl
  | cons value values ih =>
    rw [uses, uses, List.map_cons, Nat.add_assoc, ih]
    rfl

/-! ## Pieces -/

namespace Piece

/-- What it means that a piece notes and asks for what the values do, one after another. -/
structure HasUses (p : Piece) (us : List Use) : Prop where
  /-- The notes are those of the constants. -/
  diagnostics : p.diagnostics = us.filterMap Use.note?
  /-- The requests are those of the symbols. -/
  relocations : p.relocations = us.filterMap Use.request?

theorem hasUses_empty : HasUses {} [] :=
  ⟨rfl, rfl⟩

/-- The values of one piece, and those of another behind it. -/
theorem HasUses.append {p q : Piece} {us vs : List Use} (hp : p.HasUses us) (hq : q.HasUses vs) :
    (p.append q).HasUses (us ++ vs.map (·.shift p.code.length)) := by
  constructor
  · rw [List.filterMap_append, List.filterMap_map, ← hp.diagnostics]
    exact congrArg (p.diagnostics ++ ·) hq.diagnostics
  · rw [List.filterMap_append, List.filterMap_map, ← hp.relocations]
    have hshift : Use.request? ∘ (·.shift p.code.length) =
        fun u : Use => u.request?.map (·.shift p.code.length) :=
      funext fun u => u.request?_shift _
    rw [hshift, ← List.map_filterMap, ← hq.relocations]
    rfl

theorem hasUses_ofCell (c : Cell) (v : Value) (span : Span) :
    (ofCell c v span).HasUses [⟨v, c.relocation, c.range, 0, span⟩] := by
  cases v with
  | symbol s => exact ⟨rfl, rfl⟩
  | const v =>
    refine ⟨?_, rfl⟩
    unfold ofCell
    rw [List.filterMap_cons, Use.note?]
    dsimp only
    split <;> rfl

theorem hasUses_ofCells (c : Cell) (values : List (Value × Span)) :
    (ofCells c values).HasUses (c.uses 0 values) := by
  induction values with
  | nil => exact hasUses_empty
  | cons value values ih =>
    have happend := (hasUses_ofCell c value.1 value.2).append ih
    rw [length_ofCell, ← c.uses_shift, Nat.add_zero] at happend
    rw [Cell.uses, Nat.zero_add]
    exact happend

theorem hasUses_ofEncoding {f : Form} {ops : List Operand} {e : Encoding}
    (h : f.encode ops = .ok e) : (ofEncoding e).HasUses (f.uses ops) := by
  obtain ⟨hcheck, hlayout⟩ := Form.hasLayout_of_encode h
  have hfilled : ∀ s ∈ f.emission (f.slots ops), s.IsFilled := fun s hs =>
    ((Form.check_eq_ok_iff.mp hcheck).2 s (f.mem_emission.mp hs)).1
  exact ⟨hlayout.diagnostics.trans (notes_slotUses ..),
    hlayout.relocations.trans (requests_slotUses hfilled)⟩

/-- The piece of a command has the values of the command. -/
theorem hasUses_ofCommand {c : Command} {p : Piece} (h : ofCommand c = .ok p) :
    p.HasUses c.uses := by
  unfold ofCommand at h
  unfold Command.uses
  by_cases hdirective : c.isDirective = true
  · rw [if_pos hdirective] at h ⊢
    unfold ofDirective at h
    cases hcell : Cell.named? c.name.text with
    | none =>
      rw [hcell] at h
      cases h
    | some cell =>
      rw [hcell] at h
      dsimp only at h
      split at h
      · cases h
      · obtain ⟨values, hvalues, rfl⟩ := map_eq_ok.mp h
        rw [hvalues]
        exact hasUses_ofCells cell values
  · rw [if_neg hdirective] at h ⊢
    obtain ⟨ops, f, e, hops, hf, he, rfl⟩ := ofInstruction_eq_ok.mp h
    rw [hops]
    dsimp only
    rw [hf]
    exact hasUses_ofEncoding he

theorem hasUses_ofLine {l : Line} {p : Piece} (h : ofLine l = .ok p) : p.HasUses l.uses := by
  unfold ofLine at h
  unfold Line.uses
  cases hc : l.command with
  | none =>
    rw [hc] at h
    injection h with h
    rw [← h]
    exact hasUses_empty
  | some c =>
    rw [hc] at h
    exact hasUses_ofCommand h

end Piece

/-! ## Programs -/

theorem Use.shift_shift (u : Use) (m n : Nat) : (u.shift m).shift n = u.shift (n + m) := by
  simp [shift, Nat.add_assoc]

theorem usesFrom_shift (n start : Nat) (entries : List Entry) :
    usesFrom (n + start) entries = (usesFrom start entries).map (·.shift n) := by
  induction entries generalizing start with
  | nil => rfl
  | cons entry entries ih =>
    rw [usesFrom, usesFrom, List.map_append, List.map_map, Nat.add_assoc, ih]
    simp only [Function.comp_def, Use.shift_shift]

/-- The pieces of lines have the values of the lines. -/
theorem Piece.hasUses_concat {entries : List Entry}
    (h : ∀ entry ∈ entries, Piece.ofLine entry.1 = .ok entry.2) :
    (Piece.concat (entries.map (·.2))).HasUses (usesFrom 0 entries) := by
  induction entries with
  | nil => exact hasUses_empty
  | cons entry entries ih =>
    rw [List.forall_mem_cons] at h
    have happend := (hasUses_ofLine h.1).append (ih h.2)
    rw [← usesFrom_shift, Nat.add_zero] at happend
    have hzero : entry.1.uses.map (·.shift 0) = entry.1.uses := by
      simp [Use.shift]
    rw [usesFrom, hzero, Nat.zero_add]
    exact happend

end Stm8
