import Stm8.Assembler
import Stm8.Proofs.Encoding.Settling

/-!
# What a command adds to a program

A command is assembled to the same bytes, requests and notes wherever it stands; only
the requests are moved behind the program so far. A `Piece` is what a command adds:

> `command_eq`: assembling a command extends the program by its piece.
> `isOutcome_statement`: what can become of a statement, in five cases.
> `ofCommand_spec`: a piece has at least one byte, and its requests are for fields inside
> it.
-/

namespace Stm8

/-- Whether the command is a directive. -/
def Command.isDirective (c : Command) : Bool :=
  c.name.text.toList.head? == some '.'

/-- The form that is selected for a statement is the one that its operands resolve to. -/
theorem selectForm_eq_ok_iff {m : String} {ops : List Operand} {span : Span} {f : Form} :
    selectForm m ops span = .ok f ↔ resolve m ops = .ok f := by
  rw [selectForm, resolve_catalog, mapError_eq_ok]

/-- Bytes with requests and notes. Requests count from the first byte. -/
structure Piece where
  /-- The bytes. -/
  code : List UInt8 := []
  /-- Requests for symbols. -/
  relocations : List Relocation := []
  /-- Constants that their fields cannot hold. -/
  diagnostics : List Problem := []

namespace Piece

/-! ## Pieces in a row -/

/-- One piece behind another. -/
def append (p q : Piece) : Piece where
  code := p.code ++ q.code
  relocations := p.relocations ++ q.relocations.map (·.shift p.code.length)
  diagnostics := p.diagnostics ++ q.diagnostics

/-- All pieces in a row. -/
def concat : List Piece → Piece
  | [] => {}
  | p :: ps => p.append (concat ps)

theorem append_assoc (p q r : Piece) : (p.append q).append r = p.append (q.append r) := by
  simp [append, Relocation.shift_shift, Function.comp_def]

theorem concat_append (ps qs : List Piece) :
    concat (ps ++ qs) = (concat ps).append (concat qs) := by
  induction ps with
  | nil => simp [concat, append, Relocation.shift]
  | cons p ps ih => rw [List.cons_append, concat, ih, ← append_assoc, concat]

/-- The requests are for fields inside the piece. -/
def IsClosed (p : Piece) : Prop :=
  ∀ r ∈ p.relocations, r.FitsIn p.code.length

theorem isClosed_append {p q : Piece} (hp : p.IsClosed) (hq : q.IsClosed) :
    (p.append q).IsClosed := by
  intro r hr
  show r.offset + r.kind.size ≤ (p.code ++ q.code).length
  rw [List.length_append]
  rcases List.mem_append.mp hr with hr | hr
  · have hfits : r.offset + r.kind.size ≤ p.code.length := hp r hr
    omega
  · obtain ⟨r', hr', rfl⟩ := List.mem_map.mp hr
    have hfits : r'.offset + r'.kind.size ≤ q.code.length := hq r' hr'
    show p.code.length + r'.offset + r'.kind.size ≤ _
    omega

theorem isClosed_concat {ps : List Piece} (h : ∀ p ∈ ps, p.IsClosed) : (concat ps).IsClosed := by
  induction ps with
  | nil => intro r hr; cases hr
  | cons p ps ih =>
    rw [List.forall_mem_cons] at h
    exact isClosed_append h.1 (ih h.2)

/-- Every request of pieces in a row is one of a piece. -/
theorem exists_of_mem_concat {ps : List Piece} {r : Relocation}
    (hr : r ∈ (concat ps).relocations) :
    ∃ p ∈ ps, ∃ r' ∈ p.relocations, ∃ offset, r = r'.shift offset := by
  induction ps generalizing r with
  | nil => cases hr
  | cons p ps ih =>
    rcases List.mem_append.mp hr with hr | hr
    · exact ⟨p, List.mem_cons_self, r, hr, 0, (Relocation.shift_zero r).symm⟩
    · obtain ⟨r₁, hr₁, rfl⟩ := List.mem_map.mp hr
      obtain ⟨q, hq, r', hr', offset, rfl⟩ := ih hr₁
      exact ⟨q, List.mem_cons_of_mem p hq, r', hr', _, Relocation.shift_shift ..⟩

theorem diagnostics_concat {ps : List Piece} (h : ∀ p ∈ ps, p.diagnostics = []) :
    (concat ps).diagnostics = [] := by
  induction ps with
  | nil => rfl
  | cons p ps ih =>
    rw [List.forall_mem_cons] at h
    show p.diagnostics ++ (concat ps).diagnostics = []
    rw [h.1, ih h.2]
    rfl

/-! ## The piece of a command -/

/-- The piece of an encoded instruction. -/
def ofEncoding (e : Encoding) : Piece :=
  ⟨e.code.toList, e.relocations, e.diagnostics⟩

/-- The piece of one cell of a directive. -/
def ofCell (c : Cell) (v : Value) (span : Span) : Piece :=
  match v with
  | .const v =>
    { code := bigEndian c.size v
      diagnostics :=
        if v < c.range.1 || c.range.2 < v then [.outOfRange v c.range.1 c.range.2 span] else [] }
  | .symbol s =>
    { code := List.replicate c.size filler
      relocations := [⟨0, c.relocation, s.name, s.addend, span⟩] }

/-- The pieces of the values of a directive. -/
def ofCells (c : Cell) (values : List (Value × Span)) : Piece :=
  concat (values.map fun (v, span) => ofCell c v span)

/-- The piece of a directive. -/
def ofDirective (c : Command) : Except Problem Piece :=
  match Cell.named? c.name.text with
  | none => .error (.malformed (.unknownDirective c.name.text) c.name.span)
  | some cell =>
    if c.operands.isEmpty then .error (.malformed (.needsValue c.name.text) c.name.span)
    else (Cell.readValues c.operands).map (ofCells cell)

/-- The piece of an instruction. -/
def ofInstruction (c : Command) : Except Problem Piece := do
  let ops ← readOperands c.operands
  let f ← selectForm c.name.text ops c.name.span
  return ofEncoding (← f.encode ops)

/-- The piece of a command. -/
def ofCommand (c : Command) : Except Problem Piece :=
  if c.isDirective then ofDirective c else ofInstruction c

/-- The piece of a line; a line without a command adds nothing. -/
def ofLine (l : Line) : Except Problem Piece :=
  match l.command with
  | none => .ok {}
  | some c => ofCommand c

/-! ## What pieces are like -/

theorem isClosed_ofCell (c : Cell) (v : Value) (span : Span) : (ofCell c v span).IsClosed := by
  cases v with
  | const v => intro r hr; cases hr
  | symbol s =>
    intro r hr
    obtain rfl := List.mem_singleton.mp hr
    show 0 + c.relocation.size ≤ (List.replicate c.size filler).length
    rw [List.length_replicate, Nat.zero_add]
    exact Nat.le_refl _

theorem length_ofCell (c : Cell) (v : Value) (span : Span) :
    (ofCell c v span).code.length = c.size := by
  cases v <;> simp [ofCell]

theorem isClosed_ofCells (c : Cell) (values : List (Value × Span)) :
    (ofCells c values).IsClosed := by
  refine isClosed_concat fun p hp => ?_
  obtain ⟨value, -, rfl⟩ := List.mem_map.mp hp
  exact isClosed_ofCell c value.1 value.2

/-- The values of operands are as many as these. -/
theorem length_readValues {parts : List Part} :
    ∀ {values : List (Value × Span)}, Cell.readValues parts = .ok values →
      values.length = parts.length := by
  induction parts with
  | nil =>
    intro values h
    injection h with h
    rw [← h]
    rfl
  | cons p parts ih =>
    intro values h
    rw [Cell.readValues] at h
    cases hv : Value.parse? p.text.toList with
    | none =>
      rw [hv] at h
      cases h
    | some v =>
      rw [hv] at h
      obtain ⟨rest, hrest, h⟩ := bind_eq_ok.mp h
      injection h with h
      rw [← h, List.length_cons, ih hrest, List.length_cons]

/-- A directive adds at least one byte. -/
theorem ofDirective_spec {c : Command} {p : Piece} (h : ofDirective c = .ok p) :
    p.code ≠ [] ∧ p.IsClosed := by
  unfold ofDirective at h
  cases hcell : Cell.named? c.name.text with
  | none =>
    rw [hcell] at h
    cases h
  | some cell =>
    rw [hcell] at h
    by_cases hempty : c.operands.isEmpty = true
    · simp only [hempty, if_true] at h
      cases h
    · simp only [hempty] at h
      obtain ⟨values, hvalues, rfl⟩ := map_eq_ok.mp h
      refine ⟨?_, isClosed_ofCells cell values⟩
      have hlength := length_readValues hvalues
      cases values with
      | nil =>
        have hnil : c.operands = [] := List.length_eq_zero_iff.mp hlength.symm
        rw [hnil] at hempty
        exact absurd rfl hempty
      | cons value values =>
        have hpos : 0 < cell.size := by cases cell <;> decide
        intro hnil
        have hzero := congrArg List.length hnil
        rw [ofCells, List.map_cons, concat, append, List.length_append, length_ofCell,
          List.length_nil] at hzero
        omega

/-- What it means that an instruction has a piece. -/
theorem ofInstruction_eq_ok {c : Command} {p : Piece} :
    ofInstruction c = .ok p ↔
      ∃ ops f e, readOperands c.operands = .ok ops ∧ resolve c.name.text ops = .ok f ∧
        f.encode ops = .ok e ∧ p = ofEncoding e := by
  constructor
  · intro h
    obtain ⟨ops, hops, h⟩ := bind_eq_ok.mp h
    obtain ⟨f, hf, h⟩ := bind_eq_ok.mp h
    obtain ⟨e, he, h⟩ := bind_eq_ok.mp h
    injection h with h
    exact ⟨ops, f, e, hops, selectForm_eq_ok_iff.mp hf, he, h.symm⟩
  · rintro ⟨ops, f, e, hops, hf, he, rfl⟩
    rw [ofInstruction, hops, ok_bind, selectForm_eq_ok_iff.mpr hf, ok_bind, he]
    rfl

/-- An instruction adds at least one byte. -/
theorem ofEncoding_spec {f : Form} {ops : List Operand} {e : Encoding}
    (h : f.encode ops = .ok e) : (ofEncoding e).code ≠ [] ∧ (ofEncoding e).IsClosed := by
  have hlayout := (Form.hasLayout_of_encode h).2
  have hpos := f.opcodeWidth_pos
  have hlength : e.code.toList.length = f.opcodeWidth +
      ((f.emission (f.slots ops)).map fun s => s.field.length).sum := by
    rw [hlayout.code, Form.layout, List.length_append, List.length_modify,
      Form.length_opcodeBytes, List.length_flatten, List.map_map]
    rfl
  constructor
  · intro hnil
    rw [show e.code.toList = [] from hnil, List.length_nil] at hlength
    omega
  · intro r hr
    rw [show (ofEncoding e).relocations = _ from hlayout.relocations] at hr
    show r.FitsIn e.code.toList.length
    rw [hlength]
    exact fitsIn_requestsFrom (by omega) r hr

theorem ofCommand_spec {c : Command} {p : Piece} (h : ofCommand c = .ok p) :
    p.code ≠ [] ∧ p.IsClosed := by
  unfold ofCommand at h
  by_cases hdirective : c.isDirective = true
  · rw [if_pos hdirective] at h
    exact ofDirective_spec h
  · rw [if_neg hdirective] at h
    obtain ⟨ops, f, e, -, -, he, rfl⟩ := ofInstruction_eq_ok.mp h
    exact ofEncoding_spec he

theorem isClosed_ofLine {l : Line} {p : Piece} (h : ofLine l = .ok p) : p.IsClosed := by
  unfold ofLine at h
  cases hc : l.command with
  | none =>
    rw [hc] at h
    injection h with h
    subst h
    intro r hr
    cases hr
  | some c =>
    rw [hc] at h
    exact (ofCommand_spec h).2

end Piece

/-! ## Extending a program -/

namespace Assembler

/-- The program with a piece behind it. -/
def extend (a : Assembler) (p : Piece) : Assembler :=
  { a with
    code := a.code ++ p.code
    relocations := a.relocations ++ p.relocations.map (·.shift a.code.length)
    diagnostics := a.diagnostics ++ p.diagnostics }

theorem extend_empty (a : Assembler) : a.extend {} = a := by
  simp [extend]

/-- A program is extended by one piece after another. -/
theorem extend_append (a : Assembler) (p q : Piece) :
    a.extend (p.append q) = (a.extend p).extend q := by
  simp [extend, Piece.append, Relocation.shift_shift, Function.comp_def]

/-- Bytes, an encoded instruction and a cell extend the program by their pieces. -/
theorem data_eq (a : Assembler) (bytes : List UInt8) :
    a.data bytes = a.extend { code := bytes } := by
  simp [extend, data]

theorem place_eq (a : Assembler) (e : Encoding) : a.place e = a.extend (Piece.ofEncoding e) :=
  rfl

theorem fill_eq (a : Assembler) (c : Cell) (v : Value) (span : Span) :
    a.fill c v span = a.extend (Piece.ofCell c v span) := by
  cases v with
  | const v =>
    unfold fill Piece.ofCell extend data
    dsimp only
    split <;> simp
  | symbol s => simp [fill, Piece.ofCell, extend, data, Relocation.shift]

theorem foldl_fill (cell : Cell) (values : List (Value × Span)) :
    ∀ a : Assembler, values.foldl (fun a (v, span) => a.fill cell v span) a =
      a.extend (Piece.ofCells cell values) := by
  induction values with
  | nil => exact fun a => (extend_empty a).symm
  | cons value values ih =>
    intro a
    obtain ⟨v, span⟩ := value
    show List.foldl _ (a.fill cell v span) values = _
    rw [ih, fill_eq, ← extend_append]
    rfl

/-- A directive extends the program by its piece, or leaves the program alone. -/
theorem directive_eq (a : Assembler) (c : Command) :
    a.directive c = a.withResult (Piece.ofDirective c) fun p => (a.extend p, none) := by
  unfold directive Piece.ofDirective
  cases Cell.named? c.name.text with
  | none => rfl
  | some cell =>
    dsimp only
    by_cases hempty : c.operands.isEmpty = true
    · rw [if_pos hempty, if_pos hempty, withResult_error]
    · rw [if_neg hempty, if_neg hempty]
      cases Cell.readValues c.operands with
      | error problem => rfl
      | ok values => exact congrArg (·, none) (foldl_fill cell values a)

/-- So does an instruction. -/
theorem readInstruction_eq (a : Assembler) (c : Command) :
    a.readInstruction c = a.withResult (Piece.ofInstruction c) fun p => (a.extend p, none) := by
  rw [readInstruction, Piece.ofInstruction]
  cases readOperands c.operands with
  | error problem => rfl
  | ok ops =>
    rw [withResult_ok, ok_bind]
    cases selectForm c.name.text ops c.name.span with
    | error problem => rfl
    | ok f =>
      rw [withResult_ok, ok_bind, encodeForm]
      cases f.encode ops <;> rfl

/-- A command extends the program by its piece, or leaves the program alone. -/
theorem command_eq (a : Assembler) (c : Command) :
    a.command c = a.withResult (Piece.ofCommand c) fun p =>
      ((a.extend p).note a.code.length c.text, none) := by
  unfold command Piece.ofCommand Command.isDirective
  by_cases hdirective : (c.name.text.toList.head? == some '.') = true
  · rw [if_pos hdirective, if_pos hdirective, directive_eq]
    cases Piece.ofDirective c <;> rfl
  · rw [if_neg hdirective, if_neg hdirective, readInstruction_eq]
    cases Piece.ofInstruction c <;> rfl

/-- A label whose name is taken is refused, and nothing is changed. -/
theorem defineLabel_of_problem {a : Assembler} {name : String} {span : Span}
    (h : (a.defineLabel name span).2 ≠ none) : (a.defineLabel name span).1 = a := by
  unfold defineLabel at h ⊢
  cases ha : a.labelIndex[name]? with
  | some i => rfl
  | none =>
    rw [ha] at h
    exact absurd rfl h

/-- An instruction that was built is refused before anything is changed, or else it is
placed as a whole. -/
theorem instruction_cases (a : Assembler) (m : String) (ops : List Operand) :
    (∃ problem, a.instruction m ops = (a, some problem)) ∨
      ∃ f e text, selectForm m ops .nowhere = .ok f ∧ f.encode ops = .ok e ∧
        a.instruction m ops = ((a.place e).note a.code.length text, none) := by
  rw [instruction]
  cases hselect : selectForm m ops .nowhere with
  | error problem => exact Or.inl ⟨problem, rfl⟩
  | ok f =>
    rw [withResult_ok, encodeForm]
    cases he : f.encode ops with
    | error problem => exact Or.inl ⟨problem, rfl⟩
    | ok e => exact Or.inr ⟨f, e, _, rfl, he, rfl⟩

/-! ## Statements -/

/-- What can become of a statement: the assembler after it, and its problem if there is
one. -/
inductive IsOutcome (a : Assembler) (text : List Char) (number offset : Nat) :
    Assembler → Option Problem → Prop where
  /-- It does not parse. -/
  | unread {problem : Problem} :
      Line.parse text number offset = .error problem →
      IsOutcome a text number offset a (some problem)
  /-- The name of a label is taken. -/
  | taken {line : Line} {next : Assembler} {problem : Problem} :
      Line.parse text number offset = .ok line →
      a.defineLabels line.labels = (next, some problem) →
      IsOutcome a text number offset next (some problem)
  /-- There are only labels. -/
  | bare {line : Line} {next : Assembler} :
      Line.parse text number offset = .ok line →
      a.defineLabels line.labels = (next, none) → line.command = none →
      IsOutcome a text number offset next none
  /-- The command is rejected. -/
  | refused {line : Line} {next : Assembler} {c : Command} {problem : Problem} :
      Line.parse text number offset = .ok line →
      a.defineLabels line.labels = (next, none) → line.command = some c →
      Piece.ofCommand c = .error problem →
      IsOutcome a text number offset next (some problem)
  /-- The command is accepted. -/
  | accepted {line : Line} {next : Assembler} {c : Command} {p : Piece} :
      Line.parse text number offset = .ok line →
      a.defineLabels line.labels = (next, none) → line.command = some c →
      Piece.ofCommand c = .ok p →
      IsOutcome a text number offset ((next.extend p).note next.code.length c.text) none

/-- A statement is rejected because of its text, its labels or its command, or else
accepted. -/
theorem isOutcome_statement (a : Assembler) (text : List Char) (number offset : Nat) :
    a.IsOutcome text number offset (a.statement text number offset).1
      (a.statement text number offset).2 := by
  unfold statement
  cases hline : Line.parse text number offset with
  | error problem => exact .unread hline
  | ok line =>
    rw [withResult_ok]
    rcases hdefine : a.defineLabels line.labels with ⟨next, _ | problem⟩
    · rw [proceed_none]
      cases hc : line.command with
      | none => exact .bare hline hdefine hc
      | some c =>
        dsimp only
        rw [command_eq]
        cases hpiece : Piece.ofCommand c with
        | error problem => exact .refused hline hdefine hc hpiece
        | ok p => exact .accepted hline hdefine hc hpiece
    · exact .taken hline hdefine

/-- What became of a statement is what the assembler makes of it. -/
theorem statement_eq {a next : Assembler} {text : List Char} {number offset : Nat}
    {problem? : Option Problem} (h : a.IsOutcome text number offset next problem?) :
    a.statement text number offset = (next, problem?) := by
  unfold statement
  cases h with
  | unread hline => rw [hline, withResult_error]
  | taken hline hdefine => rw [hline, withResult_ok, hdefine, proceed_some]
  | bare hline hdefine hc =>
    rw [hline, withResult_ok, hdefine, proceed_none, hc]
  | refused hline hdefine hc hpiece =>
    rw [hline, withResult_ok, hdefine, proceed_none, hc]
    dsimp only
    rw [command_eq, hpiece, withResult_error]
  | accepted hline hdefine hc hpiece =>
    rw [hline, withResult_ok, hdefine, proceed_none, hc]
    dsimp only
    rw [command_eq, hpiece, withResult_ok]

/-- Labels are entered into their table. -/
theorem defineLabels_frame (ps : List Part) :
    ∀ a : Assembler, ∃ labels labelIndex,
      (a.defineLabels ps).1 = { a with labels, labelIndex } := by
  induction ps with
  | nil => exact fun a => ⟨a.labels, a.labelIndex, rfl⟩
  | cons p ps ih =>
    intro a
    rw [defineLabels]
    unfold defineLabel
    cases a.labelIndex[p.text]? with
    | some i => exact ⟨a.labels, a.labelIndex, rfl⟩
    | none =>
      obtain ⟨labels, labelIndex, h⟩ := ih { a with
        labelIndex := a.labelIndex.insert p.text a.labels.length
        labels := a.labels ++ [⟨p.text, a.code.length, p.span⟩] }
      exact ⟨labels, labelIndex, h⟩

/-- A statement defines labels, and puts the piece of a command behind the program or
nothing at all. -/
theorem statement_frame (a : Assembler) (text : List Char) (number offset : Nat) :
    ∃ labels labelIndex,
      (a.statement text number offset).1 = { a with labels, labelIndex } ∨
      ∃ c p, Piece.ofCommand c = .ok p ∧ (a.statement text number offset).1 =
        (({ a with labels, labelIndex } : Assembler).extend p).note a.code.length c.text := by
  have hlabels : ∀ {line : Line} {next : Assembler} {problem? : Option Problem},
      a.defineLabels line.labels = (next, problem?) →
        ∃ labels labelIndex, next = { a with labels, labelIndex } := by
    intro line next problem? hdefine
    have hframe := defineLabels_frame line.labels a
    rw [hdefine] at hframe
    exact hframe
  have houtcome := a.isOutcome_statement text number offset
  generalize (a.statement text number offset).1 = next at houtcome ⊢
  generalize (a.statement text number offset).2 = problem? at houtcome
  cases houtcome with
  | unread _ => exact ⟨a.labels, a.labelIndex, Or.inl rfl⟩
  | taken _ hdefine => exact (hlabels hdefine).imp fun _ => Exists.imp fun _ => Or.inl
  | bare _ hdefine _ => exact (hlabels hdefine).imp fun _ => Exists.imp fun _ => Or.inl
  | refused _ hdefine _ _ => exact (hlabels hdefine).imp fun _ => Exists.imp fun _ => Or.inl
  | @accepted line next c p _ hdefine _ hpiece =>
    obtain ⟨labels, labelIndex, rfl⟩ := hlabels hdefine
    exact ⟨labels, labelIndex, Or.inr ⟨c, p, hpiece, rfl⟩⟩

end Assembler

end Stm8
