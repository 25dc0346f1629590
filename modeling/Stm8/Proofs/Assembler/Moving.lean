import Stm8.Proofs.Assembler.Pieces
import Stm8.Proofs.Encoding.Places

/-!
# Lines that stand elsewhere

How many bytes of a source stand in front of a line is kept in the places of its parts and
nowhere else. A line that moves inside its source is parsed to the same parts, moved, and
adds the same piece, moved:

> `parse_move`: the line is accepted as before, and its parts are moved.
> `ofCommand_mapSpan`: a command whose parts are moved has the piece that it had, moved.
-/

namespace Stm8

open Stm8.Text (Slice)

/-! ## Parts in other places -/

/-- The part in another place. -/
def Part.mapSpan (g : Span → Span) (p : Part) : Part :=
  { p with span := g p.span }

/-- The command with its parts in other places. -/
def Command.mapSpan (g : Span → Span) (c : Command) : Command :=
  { c with
    name := c.name.mapSpan g
    operands := c.operands.map (Part.mapSpan g) }

/-- The line with its parts in other places. -/
def Line.mapSpan (g : Span → Span) (l : Line) : Line where
  labels := l.labels.map (Part.mapSpan g)
  command := l.command.map (Command.mapSpan g)

/-- The piece with the places of its requests and notes moved. -/
def Piece.mapSpan (g : Span → Span) (p : Piece) : Piece :=
  { p with
    relocations := p.relocations.map (Relocation.mapSpan g)
    diagnostics := p.diagnostics.map (Problem.mapSpan g) }

/-- Labels keep their names. -/
theorem map_text_mapSpan (g : Span → Span) (ps : List Part) :
    (ps.map (Part.mapSpan g)).map Part.text = ps.map Part.text := by
  rw [List.map_map]
  rfl

/-! ## Pieces -/

section

variable (g : Span → Span)

theorem readOperands_mapSpan {ps : List Part} {ops : List Operand}
    (h : readOperands ps = .ok ops) :
    readOperands (ps.map (Part.mapSpan g)) = .ok (ops.map (Operand.mapSpan g)) := by
  induction ps generalizing ops with
  | nil =>
    injection h with h
    rw [← h]
    rfl
  | cons p ps ih =>
    obtain ⟨op, hop, h⟩ := bind_eq_ok.mp h
    obtain ⟨rest, hrest, h⟩ := bind_eq_ok.mp h
    injection h with h
    have hop' : Operand.parse p.text.toList (g p.span) = .ok (op.mapSpan g) := by
      unfold Operand.parse at hop ⊢
      cases hclass : Operand.classify p.text.toList with
      | error cause =>
        rw [hclass] at hop
        cases hop
      | ok classified =>
        rw [hclass] at hop
        injection hop with hop
        rw [← hop]
        rfl
    rw [List.map_cons, readOperands, show (p.mapSpan g).text = p.text from rfl,
      show (p.mapSpan g).span = g p.span from rfl, hop', ok_bind, ih hrest, ok_bind, ← h]
    rfl

/-- The values of a directive with their places moved. -/
theorem readValues_mapSpan {ps : List Part} {values : List (Value × Span)}
    (h : Cell.readValues ps = .ok values) :
    Cell.readValues (ps.map (Part.mapSpan g)) = .ok (values.map fun (v, span) => (v, g span)) := by
  induction ps generalizing values with
  | nil =>
    injection h with h
    rw [← h]
    rfl
  | cons p ps ih =>
    rw [Cell.readValues] at h
    rw [List.map_cons, Cell.readValues, show (p.mapSpan g).text = p.text from rfl]
    cases hv : Value.parse? p.text.toList with
    | none =>
      rw [hv] at h
      cases h
    | some v =>
      rw [hv] at h
      obtain ⟨rest, hrest, h⟩ := bind_eq_ok.mp h
      injection h with h
      dsimp only
      rw [ih hrest, ok_bind, ← h]
      rfl

namespace Piece

theorem append_mapSpan (p q : Piece) :
    (p.mapSpan g).append (q.mapSpan g) = (p.append q).mapSpan g := by
  simp [append, mapSpan, Relocation.shift, Relocation.mapSpan, Function.comp_def]

theorem ofCell_mapSpan (c : Cell) (v : Value) (span : Span) :
    ofCell c v (g span) = (ofCell c v span).mapSpan g := by
  cases v with
  | const v =>
    unfold ofCell mapSpan
    dsimp only
    rw [apply_ite (List.map (Problem.mapSpan g))]
    rfl
  | symbol r => rfl

theorem ofCells_mapSpan (c : Cell) (values : List (Value × Span)) :
    ofCells c (values.map fun (v, span) => (v, g span)) = (ofCells c values).mapSpan g := by
  induction values with
  | nil => rfl
  | cons value values ih =>
    show (ofCell c value.1 (g value.2)).append (ofCells c _) =
      ((ofCell c value.1 value.2).append (ofCells c values)).mapSpan g
    rw [ih, ofCell_mapSpan, append_mapSpan]

/-- A command whose parts are moved has the piece that it had, moved. -/
theorem ofCommand_mapSpan {c : Command} {p : Piece} (h : ofCommand c = .ok p) :
    ofCommand (c.mapSpan g) = .ok (p.mapSpan g) := by
  unfold ofCommand at h ⊢
  rw [show (c.mapSpan g).isDirective = c.isDirective from rfl]
  by_cases hdirective : c.isDirective = true
  · rw [if_pos hdirective] at h ⊢
    unfold ofDirective at h ⊢
    rw [show (c.mapSpan g).name.text = c.name.text from rfl,
      show (c.mapSpan g).operands = c.operands.map (Part.mapSpan g) from rfl, List.isEmpty_map]
    cases hcell : Cell.named? c.name.text with
    | none =>
      rw [hcell] at h
      cases h
    | some cell =>
      rw [hcell] at h
      dsimp only at h ⊢
      split at h
      · cases h
      · next hsome =>
        obtain ⟨values, hvalues, rfl⟩ := map_eq_ok.mp h
        rw [if_neg hsome, readValues_mapSpan g hvalues]
        exact congrArg Except.ok (ofCells_mapSpan g cell values)
  · rw [if_neg hdirective] at h ⊢
    obtain ⟨ops, f, e, hops, hf, he, rfl⟩ := ofInstruction_eq_ok.mp h
    have hmove := Operand.isMove_mapSpan g
    exact ofInstruction_eq_ok.mpr ⟨ops.map (Operand.mapSpan g), f, e.mapSpan g,
      readOperands_mapSpan g hops, resolve_move hmove hf,
      Form.encode_move hmove (mem_of_resolve hf) he, rfl⟩

end Piece

end

/-! ## Lines -/

/-- The place, where `offset'` bytes stand in front of its line and not `offset`. -/
def Span.move (offset offset' : Nat) (s : Span) : Span :=
  { s with offset := offset' + (s.offset - offset) }

namespace Line

variable {number offset : Nat} (offset' : Nat)

theorem spanAt_move (start length : Nat) :
    (spanAt number offset start length).move offset offset' =
      spanAt number offset' start length := by
  unfold Span.move spanAt
  rw [Nat.add_sub_cancel_left]

theorem part_move (s : Slice) :
    (part number offset s).mapSpan (Span.move offset offset') = part number offset' s := by
  unfold Part.mapSpan part
  rw [spanAt_move]

theorem operandParts_move {slices : List Slice} {ps : List Part}
    (h : operandParts number offset slices = .ok ps) :
    operandParts number offset' slices =
      .ok (ps.map (Part.mapSpan (Span.move offset offset'))) := by
  induction slices generalizing ps with
  | nil =>
    injection h with h
    rw [← h]
    rfl
  | cons s slices ih =>
    unfold operandParts at h ⊢
    dsimp only at h ⊢
    split at h
    · cases h
    · next hsome =>
      obtain ⟨rest, hrest, h⟩ := bind_eq_ok.mp h
      injection h with h
      rw [if_neg hsome, ih hrest, ok_bind, ← h, List.map_cons, part_move]
      rfl

theorem operands_move {args : Slice} {ps : List Part} (h : operands number offset args = .ok ps) :
    operands number offset' args = .ok (ps.map (Part.mapSpan (Span.move offset offset'))) := by
  unfold operands at h ⊢
  split at h
  · next hempty =>
    injection h with h
    rw [if_pos hempty, ← h]
    rfl
  · next hsome =>
    rw [if_neg hsome]
    cases hsplit : splitOperands args with
    | error imbalance =>
      rw [hsplit] at h
      cases imbalance <;> cases h
    | ok slices =>
      rw [hsplit] at h
      obtain ⟨parts, hparts, h⟩ := bind_eq_ok.mp h
      dsimp only
      rw [operandParts_move offset' hparts, ok_bind, ← List.map_drop]
      cases hdrop : parts.drop maxOperands with
      | nil =>
        rw [hdrop] at h
        injection h with h
        rw [h]
        rfl
      | cons extra rest =>
        rw [hdrop] at h
        cases h

/-- A line that stands elsewhere in its source is accepted as before, and its parts are
moved. -/
theorem parse_move {text : List Char} {l : Line} (h : parse text number offset = .ok l) :
    parse text number offset' = .ok (l.mapSpan (Span.move offset offset')) := by
  unfold parse at h ⊢
  have hlabels : ∀ slices : List Slice, slices.map (part number offset') =
      (slices.map (part number offset)).map (Part.mapSpan (Span.move offset offset')) := by
    intro slices
    rw [List.map_map]
    exact List.map_congr_left fun s _ => (part_move offset' s).symm
  dsimp only at h ⊢
  split at h
  · next hempty =>
    injection h with h
    rw [if_pos hempty, ← h, hlabels]
    rfl
  · next hsome =>
    obtain ⟨ops, hops, h⟩ := bind_eq_ok.mp h
    injection h with h
    rw [if_neg hsome, operands_move offset' hops, ok_bind, ← h, hlabels]
    unfold mapSpan Command.mapSpan
    simp only [Option.map_some, part_move]
    rfl

end Line

end Stm8
