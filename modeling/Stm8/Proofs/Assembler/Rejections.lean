import Stm8.Proofs.Assembler.Moving
import Stm8.Proofs.Line.Labels
import Stm8.Proofs.Line.Source
import Stm8.Session

/-!
# Rejected lines

A line that is rejected leaves nothing behind but its labels, and of these only the ones in
front of what the line is rejected for (`Fails`). So the rest of a source is assembled as
if such a line had held those labels alone:

> `emitLine_of_rejected`: what a rejected line does to a program.
> `SameProgram.emitLine`: a line and what is kept of it (`keptLine`) do the same.
> `rejections_without_output`: a source without its rejected lines is assembled to the same
> program, and nothing of it is rejected.

The two programs differ in where things stand. What is kept of a line has the number of the
line, but it is shorter, so that the lines behind it move.
-/

namespace Stm8

/-- The place without the number of bytes in front of it. -/
def Span.inLine (s : Span) : Span :=
  { s with offset := 0 }

/-- The label that the part defines in front of the byte at `offset`. -/
def Part.labelAt (offset : Nat) (p : Part) : Label :=
  ⟨p.text, offset, p.span⟩

namespace Assembler

/-! ## What a rejected line does -/

/-- What a line is rejected for, and the labels in front of it. -/
inductive Fails (a : Assembler) (text : List Char) (number offset : Nat) :
    List Part → Problem → Prop where
  /-- The line cannot be parsed. -/
  | unread {problem : Problem} :
      Line.parse text number offset = .error problem → Fails a text number offset [] problem
  /-- The name of a label is taken, and the call that finds it so changes nothing. -/
  | taken {front behind : List Part} {p : Part} {command : Option Command} {problem : Problem} :
      Line.parse text number offset = .ok ⟨front ++ p :: behind, command⟩ →
      (a.defineLabels front).2 = none →
      (a.defineLabels front).1.defineLabel p.text p.span =
        ((a.defineLabels front).1, some problem) →
      Fails a text number offset front problem
  /-- The command is rejected, behind all labels, and the call changes nothing. -/
  | refused {front : List Part} {c : Command} {problem : Problem} :
      Line.parse text number offset = .ok ⟨front, some c⟩ →
      (a.defineLabels front).2 = none →
      (a.defineLabels front).1.command c = ((a.defineLabels front).1, some problem) →
      Fails a text number offset front problem

/-- The labels in front of the failure are all defined. -/
theorem Fails.defined {a : Assembler} {text : List Char} {number offset : Nat}
    {front : List Part} {problem : Problem} (h : a.Fails text number offset front problem) :
    (a.defineLabels front).2 = none := by
  cases h with
  | unread _ => rfl
  | taken _ hfront _ => exact hfront
  | refused _ hfront _ => exact hfront

/-- Labels that are all defined stand in front of the next byte. -/
theorem defineLabels_eq {ps : List Part} :
    ∀ {a : Assembler}, (a.defineLabels ps).2 = none →
      (a.defineLabels ps).1 = { a with
        labels := a.labels ++ ps.map (Part.labelAt a.code.length)
        labelIndex := (a.defineLabels ps).1.labelIndex } := by
  induction ps with
  | nil =>
    intro a _
    rw [List.map_nil, List.append_nil]
    rfl
  | cons p ps ih =>
    intro a h
    rw [defineLabels] at h ⊢
    unfold defineLabel at h ⊢
    cases hname : a.labelIndex[p.text]? with
    | some i =>
      rw [hname] at h
      cases h
    | none =>
      rw [hname] at h
      dsimp only at h ⊢
      have hrest := ih h
      rw [List.append_assoc] at hrest
      exact hrest

/-- Labels are defined up to the first one whose name is taken. -/
theorem exists_taken {ps : List Part} {problem : Problem} :
    ∀ {a : Assembler}, (a.defineLabels ps).2 = some problem →
      ∃ front p behind, ps = front ++ p :: behind ∧ (a.defineLabels front).2 = none ∧
        (a.defineLabels ps).1 = (a.defineLabels front).1 ∧
        (a.defineLabels front).1.defineLabel p.text p.span =
          ((a.defineLabels front).1, some problem) := by
  induction ps with
  | nil =>
    intro a h
    cases h
  | cons p ps ih =>
    intro a h
    rw [defineLabels] at h ⊢
    rcases hdefine : a.defineLabel p.text p.span with ⟨next, _ | taken⟩
    · rw [hdefine, proceed_none] at h
      rw [proceed_none]
      obtain ⟨front, taken, behind, hps, hfront, hsame, hproblem⟩ := ih h
      have hcons : a.defineLabels (p :: front) = next.defineLabels front := by
        rw [defineLabels, hdefine, proceed_none]
      refine ⟨p :: front, taken, behind, by rw [hps, List.cons_append], ?_, ?_, ?_⟩
      · rw [hcons]
        exact hfront
      · rw [hcons]
        exact hsame
      · rw [hcons]
        exact hproblem
    · rw [hdefine, proceed_some] at h
      injection h with h
      subst h
      have hkept : next = a := by
        have hkept := @defineLabel_of_problem a p.text p.span
        rw [hdefine] at hkept
        exact hkept (Option.some_ne_none _)
      rw [hkept] at hdefine ⊢
      exact ⟨[], p, ps, rfl, rfl, rfl, hdefine⟩

/-- A statement that is rejected defines the labels in front of the failure. -/
theorem statement_of_rejected {a : Assembler} {text : List Char} {number offset : Nat}
    {problem : Problem} (h : (a.statement text number offset).2 = some problem) :
    ∃ front, a.Fails text number offset front problem ∧
      (a.statement text number offset).1 = (a.defineLabels front).1 := by
  have houtcome := a.isOutcome_statement text number offset
  rw [h] at houtcome
  generalize (a.statement text number offset).1 = next at houtcome ⊢
  cases houtcome with
  | unread hline => exact ⟨[], .unread hline, rfl⟩
  | @taken line _ _ hline hdefine =>
    have htaken : (a.defineLabels line.labels).2 = some problem := by
      rw [hdefine]
    obtain ⟨front, p, behind, hps, hfront, hsame, hproblem⟩ := exists_taken htaken
    rw [hdefine] at hsame
    have hparts : Line.parse text number offset = .ok ⟨front ++ p :: behind, line.command⟩ := by
      rw [hline, ← hps]
    exact ⟨front, .taken hparts hfront hproblem, hsame⟩
  | @refused line _ c _ hline hdefine hc hpiece =>
    have hparts : Line.parse text number offset = .ok ⟨line.labels, some c⟩ := by
      rw [hline, ← hc]
    have hcommand : (a.defineLabels line.labels).1.command c =
        ((a.defineLabels line.labels).1, some problem) := by
      rw [command_eq, hpiece, withResult_error]
    exact ⟨line.labels, .refused hparts (by rw [hdefine]) hcommand, by rw [hdefine]⟩

/-- A line that is rejected adds those of its labels that stand in front of the failure,
and is counted. -/
theorem emitLine_of_rejected {a : Assembler} {line : List Char} {problem : Problem}
    (h : (a.emitLine line).2 = some problem) :
    ∃ front, a.Fails (withoutBreak line) (a.lines + 1) a.sourceBytes front problem ∧
      (a.emitLine line).1 = { a with
        labels := a.labels ++ front.map (Part.labelAt a.code.length)
        labelIndex := (a.defineLabels front).1.labelIndex
        lines := a.lines + 1
        sourceBytes := a.sourceBytes + Text.width line
        rejections := a.rejections ++ [problem] } := by
  obtain ⟨front, hfails, hsame⟩ := statement_of_rejected h
  refine ⟨front, hfails, ?_⟩
  unfold emitLine at h ⊢
  dsimp only at h ⊢
  rw [h, hsame, defineLabels_eq hfails.defined]
  rfl

/-! ## The same program -/

/-- Whether two programs differ at most in where things stand in their sources, and in
what only counts lines, bytes and problems. -/
structure SameProgram (a b : Assembler) : Prop where
  base : b.base = a.base
  externals : b.externals = a.externals
  code : b.code = a.code
  /-- The same requests, on the same lines and in the same columns. -/
  relocations : b.relocations.map (Relocation.mapSpan Span.inLine) =
    a.relocations.map (Relocation.mapSpan Span.inLine)
  /-- The same notes, on the same lines and in the same columns. -/
  diagnostics : b.diagnostics.map (Problem.mapSpan Span.inLine) =
    a.diagnostics.map (Problem.mapSpan Span.inLine)
  /-- The same labels in front of the same bytes. -/
  labels : b.labels.map (fun l => (l.name, l.offset)) = a.labels.map fun l => (l.name, l.offset)
  labelIndex : b.labelIndex = a.labelIndex
  listing : b.listing = a.listing
  notes : b.notes = a.notes

namespace SameProgram

variable {a b : Assembler}

theorem refl (a : Assembler) : SameProgram a a :=
  ⟨rfl, rfl, rfl, rfl, rfl, rfl, rfl, rfl, rfl⟩

/-- Counting makes no difference. -/
theorem count (h : SameProgram a b) (lines lines' sourceBytes sourceBytes' : Nat)
    (rejections rejections' : List Problem) :
    SameProgram { a with lines, sourceBytes, rejections }
      { b with
        lines := lines'
        sourceBytes := sourceBytes'
        rejections := rejections' } :=
  ⟨h.base, h.externals, h.code, h.relocations, h.diagnostics, h.labels, h.labelIndex, h.listing,
    h.notes⟩

/-- Labels of the same names are defined in both programs. -/
theorem defineLabels {ps qs : List Part} (hnames : qs.map Part.text = ps.map Part.text) :
    ∀ {a b : Assembler}, SameProgram a b → (a.defineLabels ps).2 = none →
      (b.defineLabels qs).2 = none ∧
        SameProgram (a.defineLabels ps).1 (b.defineLabels qs).1 := by
  induction ps generalizing qs with
  | nil =>
    intro a b h _
    obtain rfl : qs = [] := List.map_eq_nil_iff.mp hnames
    exact ⟨rfl, h⟩
  | cons p ps ih =>
    intro a b h hps
    cases qs with
    | nil => cases hnames
    | cons q qs =>
      obtain ⟨hname, hnames⟩ := List.cons.inj hnames
      rw [Assembler.defineLabels] at hps ⊢
      rw [Assembler.defineLabels]
      unfold defineLabel at hps ⊢
      rw [hname, h.labelIndex]
      cases hfree : a.labelIndex[p.text]? with
      | some i =>
        rw [hfree] at hps
        cases hps
      | none =>
        rw [hfree] at hps
        dsimp only at hps ⊢
        have hlength : b.labels.length = a.labels.length := by
          simpa using congrArg List.length h.labels
        refine ih hnames { h with labels := ?_, labelIndex := ?_ } hps
        · simp only [List.map_append, h.labels, h.code, List.map_cons, List.map_nil]
        · rw [hlength]

/-- Both programs are extended by one piece, which has been moved in its source. -/
theorem extend (h : SameProgram a b) (p : Piece) {g : Span → Span}
    (hg : ∀ s, (g s).inLine = s.inLine) : SameProgram (a.extend p) (b.extend (p.mapSpan g)) where
  base := h.base
  externals := h.externals
  code := congrArg (· ++ p.code) h.code
  relocations := by
    have hmove : ∀ r : Relocation,
        ((r.mapSpan g).shift b.code.length).mapSpan Span.inLine =
          (r.shift a.code.length).mapSpan Span.inLine := by
      intro r
      unfold Relocation.mapSpan Relocation.shift
      rw [hg, h.code]
    unfold Assembler.extend Piece.mapSpan
    simp only [List.map_append, h.relocations, List.map_map]
    exact congrArg _ (List.map_congr_left fun r _ => hmove r)
  diagnostics := by
    have hmove : ∀ p : Problem, (p.mapSpan g).mapSpan Span.inLine = p.mapSpan Span.inLine := by
      intro p
      cases p <;> simp only [Problem.mapSpan, hg]
    unfold Assembler.extend Piece.mapSpan
    simp only [List.map_append, h.diagnostics, List.map_map]
    exact congrArg _ (List.map_congr_left fun p _ => hmove p)
  labels := h.labels
  labelIndex := h.labelIndex
  listing := h.listing
  notes := h.notes

theorem note (h : SameProgram a b) (offset : Nat) (text : String) :
    SameProgram (a.note offset text) (b.note offset text) := by
  unfold Assembler.note
  by_cases hlisting : a.listing = true
  · rw [if_pos hlisting, if_pos (h.listing.trans hlisting)]
    exact { h with notes := congrArg (· ++ [⟨offset, text⟩]) h.notes }
  · rw [if_neg hlisting, if_neg (by rwa [h.listing])]
    exact h

end SameProgram

/-! ## What is kept of a line -/

/-- The line breaks at the end of a line. -/
def lineBreak (line : List Char) : List Char :=
  (line.reverse.takeWhile fun c => c == '\n' || c == '\r').reverse

/-- The line if it is accepted, and else those of its labels that are defined all the
same. -/
def keptLine (a : Assembler) (line : List Char) : List Char :=
  match a.emitLine line with
  | (_, none) => line
  | (next, some _) =>
    Line.labelText ((next.labels.drop a.labels.length).map Label.name) ++ lineBreak line

/-- What is kept of the lines of a source. -/
def keptText (a : Assembler) : List (List Char) → List Char
  | [] => []
  | line :: lines => a.keptLine line ++ (a.emitLine line).1.keptText lines

/-- The source with every line that is rejected replaced by its labels that are defined
all the same. -/
def withoutRejected (a : Assembler) (source : String) : String :=
  String.ofList (a.keptText (splitLines source.toList))

theorem withoutBreak_append_lineBreak (line : List Char) :
    withoutBreak line ++ lineBreak line = line := by
  unfold withoutBreak lineBreak
  rw [← List.reverse_append, List.takeWhile_append_dropWhile, List.reverse_reverse]

theorem lineBreak_concat (line : List Char) :
    lineBreak (line ++ ['\n']) = lineBreak line ++ ['\n'] := by
  unfold lineBreak
  rw [List.reverse_append, List.reverse_singleton, List.singleton_append,
    List.takeWhile_cons_of_pos rfl, List.reverse_cons]

theorem mem_lineBreak {line : List Char} {c : Char} (hc : c ∈ lineBreak line) :
    c = '\n' ∨ c = '\r' := by
  have hbreak := List.mem_takeWhile_imp (List.mem_reverse.mp hc)
  simpa using hbreak

/-- The labels of a line in front of its failure have the names of symbols. -/
theorem Fails.isSymbolName {a : Assembler} {text : List Char} {number offset : Nat}
    {front : List Part} {problem : Problem} (h : a.Fails text number offset front problem) :
    ∀ name ∈ front.map Part.text, isSymbolName name.toList = true := by
  rw [List.forall_mem_map]
  intro p hp
  cases h with
  | unread _ => cases hp
  | taken hline _ _ => exact Line.isSymbolName_of_mem_labels hline (List.mem_append_left _ hp)
  | refused hline _ _ => exact Line.isSymbolName_of_mem_labels hline hp

/-- What is kept of a rejected line are its labels in front of the failure. -/
theorem keptLine_of_rejected {a : Assembler} {line : List Char} {problem : Problem}
    (h : (a.emitLine line).2 = some problem) :
    ∃ front, a.Fails (withoutBreak line) (a.lines + 1) a.sourceBytes front problem ∧
      (a.statement (withoutBreak line) (a.lines + 1) a.sourceBytes).1 =
        (a.defineLabels front).1 ∧
      a.keptLine line = Line.labelText (front.map Part.text) ++ lineBreak line := by
  obtain ⟨front, hfails, hsame⟩ := statement_of_rejected h
  refine ⟨front, hfails, hsame, ?_⟩
  have hlabels : (a.emitLine line).1.labels.drop a.labels.length =
      front.map (Part.labelAt a.code.length) := by
    show List.drop a.labels.length (a.statement _ _ _).1.labels = _
    rw [hsame, defineLabels_eq hfails.defined]
    exact List.drop_left
  unfold keptLine
  split
  · next heq =>
    rw [heq] at h
    cases h
  · next heq =>
    rw [heq] at hlabels
    dsimp only at hlabels
    rw [hlabels, List.map_map]
    rfl

theorem keptLine_of_accepted {a : Assembler} {line : List Char} (h : (a.emitLine line).2 = none) :
    a.keptLine line = line := by
  unfold keptLine
  split
  · rfl
  · next heq =>
    rw [heq] at h
    cases h

/-! ## Lines of what is kept -/

theorem notMem_labelText_append {names : List String}
    (hnames : ∀ name ∈ names, isSymbolName name.toList = true) {line : List Char}
    (hline : '\n' ∉ line) : '\n' ∉ Line.labelText names ++ lineBreak line := by
  rw [List.mem_append, not_or]
  constructor
  · intro hmem
    exact Line.ne_of_mem_labelText hnames hmem rfl (by decide) rfl
  · intro hmem
    rw [← withoutBreak_append_lineBreak line, List.mem_append, not_or] at hline
    exact hline.2 hmem

/-- What is kept of the last line is the last line of what is kept. -/
theorem notMem_keptLine (a : Assembler) {line : List Char} (h : '\n' ∉ line) :
    '\n' ∉ a.keptLine line := by
  cases hproblem : (a.emitLine line).2 with
  | none =>
    rw [keptLine_of_accepted hproblem]
    exact h
  | some problem =>
    obtain ⟨front, hfails, -, hkept⟩ := keptLine_of_rejected hproblem
    rw [hkept]
    exact notMem_labelText_append hfails.isSymbolName h

/-- What is kept of a line ends where the line does. -/
theorem exists_keptLine_concat (a : Assembler) {line : List Char} (h : '\n' ∉ line) :
    ∃ kept, a.keptLine (line ++ ['\n']) = kept ++ ['\n'] ∧ '\n' ∉ kept := by
  cases hproblem : (a.emitLine (line ++ ['\n'])).2 with
  | none => exact ⟨line, keptLine_of_accepted hproblem, h⟩
  | some problem =>
    obtain ⟨front, hfails, -, hkept⟩ := keptLine_of_rejected hproblem
    refine ⟨_, ?_, notMem_labelText_append hfails.isSymbolName h⟩
    rw [hkept, lineBreak_concat, List.append_assoc]

/-! ## The same program without rejected lines -/

/-- A line of nothing but labels defines them. -/
theorem isOutcome_labelText (a : Assembler) {names : List String}
    (hnames : ∀ name ∈ names, isSymbolName name.toList = true) {breaks : List Char}
    (hbreaks : ∀ c ∈ breaks, c = '\n' ∨ c = '\r') (number offset : Nat) :
    ∃ ps : List Part, ps.map Part.text = names ∧ ((a.defineLabels ps).2 = none →
      a.IsOutcome (withoutBreak (Line.labelText names ++ breaks)) number offset
        (a.defineLabels ps).1 none) := by
  have hsolid : ∀ c ∈ Line.labelText names, c ≠ '\n' ∧ c ≠ '\r' := fun c hc =>
    ⟨Line.ne_of_mem_labelText hnames hc rfl (by decide),
      Line.ne_of_mem_labelText hnames hc rfl (by decide)⟩
  obtain ⟨ps, hparse, htexts⟩ := Line.parse_labelText hnames number offset
  refine ⟨ps, htexts, fun hdefined => ?_⟩
  rw [withoutBreak_append hsolid hbreaks]
  exact .bare hparse (Prod.ext rfl hdefined) rfl

/-- An empty line is only counted. -/
theorem emitLine_nil (a : Assembler) :
    (a.emitLine []).1 = { a with lines := a.lines + 1 } := by
  obtain ⟨ps, hnames, houtcome⟩ := a.isOutcome_labelText (List.forall_mem_nil _)
    (List.forall_mem_nil _) (a.lines + 1) a.sourceBytes
  obtain rfl : ps = [] := List.map_eq_nil_iff.mp hnames
  have hstatement : a.statement [] (a.lines + 1) a.sourceBytes = (a, none) :=
    statement_eq (houtcome rfl)
  unfold emitLine
  rw [show withoutBreak [] = [] from rfl, hstatement]
  simp

/-- A line that is accepted does the same to the same program, wherever it stands. -/
theorem SameProgram.statement {a b : Assembler} (h : SameProgram a b) {text : List Char}
    {number offset : Nat} (offset' : Nat) (haccepted : (a.statement text number offset).2 = none) :
    (b.statement text number offset').2 = none ∧
      SameProgram (a.statement text number offset).1 (b.statement text number offset').1 := by
  let g := Span.move offset offset'
  have houtcome := a.isOutcome_statement text number offset
  rw [haccepted] at houtcome
  have hlabels : ∀ {line : Line} {next : Assembler}, a.defineLabels line.labels = (next, none) →
      ∃ next', b.defineLabels (line.mapSpan g).labels = (next', none) ∧ SameProgram next next' := by
    intro line next hdefine
    obtain ⟨hdefined, hsame⟩ := h.defineLabels (map_text_mapSpan g line.labels)
      (congrArg Prod.snd hdefine)
    rw [hdefine] at hsame
    exact ⟨_, Prod.ext rfl hdefined, hsame⟩
  generalize (a.statement text number offset).1 = next at houtcome ⊢
  cases houtcome with
  | bare hline hdefine hc =>
    obtain ⟨next', hdefine', hsame⟩ := hlabels hdefine
    have hc' : (Line.mapSpan g _).command = none := congrArg (Option.map (Command.mapSpan g)) hc
    rw [statement_eq (.bare (Line.parse_move offset' hline) hdefine' hc')]
    exact ⟨rfl, hsame⟩
  | @accepted line next c p hline hdefine hc hpiece =>
    obtain ⟨next', hdefine', hsame⟩ := hlabels hdefine
    have hc' : (line.mapSpan g).command = some (c.mapSpan g) :=
      congrArg (Option.map (Command.mapSpan g)) hc
    rw [statement_eq (.accepted (Line.parse_move offset' hline) hdefine' hc'
      (Piece.ofCommand_mapSpan g hpiece)), hsame.code]
    exact ⟨rfl, (hsame.extend (g := g) p fun _ => rfl).note _ _⟩

/-- A line and what is kept of it do the same to the same program. -/
theorem SameProgram.emitLine {a b : Assembler} (h : SameProgram a b) (hlines : b.lines = a.lines)
    (line : List Char) :
    (b.emitLine (a.keptLine line)).2 = none ∧
      SameProgram (a.emitLine line).1 (b.emitLine (a.keptLine line)).1 := by
  have hcount : ∀ kept, (b.statement (withoutBreak kept) (b.lines + 1) b.sourceBytes).2 = none ∧
      SameProgram (a.statement (withoutBreak line) (a.lines + 1) a.sourceBytes).1
        (b.statement (withoutBreak kept) (b.lines + 1) b.sourceBytes).1 →
      (b.emitLine kept).2 = none ∧ SameProgram (a.emitLine line).1 (b.emitLine kept).1 :=
    fun kept hsame => ⟨hsame.1, hsame.2.count ..⟩
  apply hcount
  cases hproblem : (a.emitLine line).2 with
  | none =>
    rw [keptLine_of_accepted hproblem, hlines]
    exact h.statement b.sourceBytes hproblem
  | some problem =>
    obtain ⟨front, hfails, hsame, hkept⟩ := keptLine_of_rejected hproblem
    obtain ⟨ps, hnames, houtcome⟩ := b.isOutcome_labelText hfails.isSymbolName
      (fun _ => mem_lineBreak) (b.lines + 1) b.sourceBytes
    obtain ⟨hdefined, hlabelled⟩ := h.defineLabels hnames hfails.defined
    rw [hkept, statement_eq (houtcome hdefined), hsame]
    exact ⟨rfl, hlabelled⟩

/-- A source and what is kept of it do the same to the same program. -/
theorem SameProgram.emitLines (source : List Char) :
    ∀ {a b : Assembler}, SameProgram a b → b.lines = a.lines →
      (b.emitLines (splitLines (a.keptText (splitLines source)))).2 = [] ∧
        SameProgram (a.emitLines (splitLines source)).1
          (b.emitLines (splitLines (a.keptText (splitLines source)))).1 := by
  -- both programs count lines alike, so what is kept has the line numbers that it had
  induction source using lines_induction with
  | nil => exact fun h _ => ⟨rfl, h⟩
  | last line hne hline =>
    intro a b h hlines
    obtain ⟨haccepted, hsame⟩ := h.emitLine hlines line
    have hkept : a.keptText [line] = a.keptLine line := List.append_nil _
    rw [splitLines_last hne hline, hkept]
    by_cases hnil : a.keptLine line = []
    · -- the line leaves nothing, and nothing is not a line
      rw [hnil, emitLine_nil] at hsame
      rw [hnil]
      exact ⟨rfl, hsame.count ..⟩
    · rw [splitLines_last hnil (a.notMem_keptLine hline), emitLines_cons, emitLines_cons,
        haccepted]
      exact ⟨rfl, hsame⟩
  | line line rest hline ih =>
    intro a b h hlines
    obtain ⟨haccepted, hsame⟩ := h.emitLine hlines (line ++ ['\n'])
    obtain ⟨kept, hkept, hnot⟩ := a.exists_keptLine_concat hline
    have htext : a.keptText ((line ++ ['\n']) :: splitLines rest) =
        kept ++ '\n' :: (a.emitLine (line ++ ['\n'])).1.keptText (splitLines rest) := by
      rw [keptText, hkept, List.append_assoc, List.singleton_append]
    obtain ⟨hproblems, hprogram⟩ := ih hsame (congrArg (· + 1) hlines)
    rw [splitLines_append hline, htext, splitLines_append hnot, ← hkept, emitLines_cons,
      emitLines_cons, haccepted, hproblems]
    exact ⟨rfl, hprogram⟩

/-! ## Rejections -/

/-- What was built is accepted, or it is refused and nothing is changed. -/
theorem instruction_of_problem {a : Assembler} {m : String} {ops : List Operand}
    (h : (a.instruction m ops).2 ≠ none) : (a.instruction m ops).1 = a := by
  rcases a.instruction_cases m ops with ⟨problem, hrefused⟩ | ⟨f, e, text, -, -, hplaced⟩
  · rw [hrefused]
  · rw [hplaced] at h
    exact absurd rfl h

/-- **What is rejected leaves no output.** A line leaves its labels in front of the failure,
a source is assembled as if its rejected lines had held those labels alone, and the other
calls leave nothing. -/
theorem rejections_without_output (a : Assembler) :
    (∀ line problem, (a.emitLine line).2 = some problem →
        ∃ front, a.Fails (withoutBreak line) (a.lines + 1) a.sourceBytes front problem ∧
          (a.emitLine line).1 = { a with
            labels := a.labels ++ front.map (Part.labelAt a.code.length)
            labelIndex := (a.defineLabels front).1.labelIndex
            lines := a.lines + 1
            sourceBytes := a.sourceBytes + Text.width line
            rejections := a.rejections ++ [problem] }) ∧
      (∀ source, (a.emit (a.withoutRejected source)).2 = [] ∧
        SameProgram (a.emit source).1 (a.emit (a.withoutRejected source)).1) ∧
      (∀ name, (a.perform (.label name)).2 ≠ [] → (a.perform (.label name)).1 = a) ∧
      ∀ m ops, (a.perform (.instruction m ops)).2 ≠ [] →
        (a.perform (.instruction m ops)).1 = a := by
  refine ⟨fun line problem h => emitLine_of_rejected h, fun source => ?_, fun name => ?_,
    fun m ops => ?_⟩
  · unfold emit withoutRejected
    rw [String.toList_ofList]
    exact (SameProgram.refl a).emitLines source.toList rfl
  · intro h
    exact defineLabel_of_problem fun hnone => h (by rw [perform, outcome_snd, hnone]; rfl)
  · rw [perform_instruction, outcome_fst, outcome_snd]
    exact fun h => instruction_of_problem fun hnone => h (by rw [hnone]; rfl)

/-- The name of a label is taken in one line, and a directive is unknown in another. -/
theorem rejections_without_output_labels :
    let a : Assembler := run {} [.label "x", .data [0x9D]]
    let line := "y: x: .db 1\n".toList
    let problem := Problem.duplicateLabel "x" ⟨1, 4, 3, 1⟩ .nowhere
    let source := "y: x: .db 1\n .db z, 300\nw: .frob 1"
    (a.emitLine line).2 = some problem ∧
      (∃ front, a.Fails (withoutBreak line) (a.lines + 1) a.sourceBytes front problem ∧
        (a.emitLine line).1.labels = a.labels ++ front.map (Part.labelAt a.code.length)) ∧
      a.withoutRejected source = "y:\n .db z, 300\nw:" ∧
      (a.emit (a.withoutRejected source)).2 = [] ∧
      SameProgram (a.emit source).1 (a.emit (a.withoutRejected source)).1 ∧
      (a.emit source).1.code = [0x9D, 0xAA, 0x2C] ∧
      (a.perform (.label "x")).2 ≠ [] ∧ (a.perform (.label "x")).1 = a ∧
      (a.perform (.instruction "frob" [])).2 ≠ [] ∧
      (a.perform (.instruction "frob" [])).1 = a := by
  intro a line problem source
  obtain ⟨hline, hsource, hlabel, hinstruction⟩ := rejections_without_output a
  have hrejected : (a.emitLine line).2 = some problem := by decide +kernel
  have hkept : a.withoutRejected source = "y:\n .db z, 300\nw:" := by decide +kernel
  have hcode : (a.emit source).1.code = [0x9D, 0xAA, 0x2C] := by decide +kernel
  have htaken : (a.perform (.label "x")).2 ≠ [] := by decide +kernel
  have hselect : selectForm "frob" [] .nowhere = .error (.unknownMnemonic "frob" .nowhere) := by
    have hnone : Form.all.filter (·.hasMnemonic "frob") = [] := by decide +kernel
    rw [selectForm, resolve_catalog, resolve, hnone]
    rfl
  have hunknown : (a.perform (.instruction "frob" [])).2 ≠ [] := by
    rw [perform_instruction, outcome_snd, instruction, hselect]
    exact List.cons_ne_nil _ _
  obtain ⟨front, hfails, hnext⟩ := hline line problem hrejected
  exact ⟨hrejected, ⟨front, hfails, by rw [hnext]⟩, hkept, (hsource source).1,
    (hsource source).2, hcode, htaken, hlabel "x" htaken, hunknown,
    hinstruction "frob" [] hunknown⟩

end Assembler

end Stm8
