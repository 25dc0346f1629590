import Stm8.Proofs.Assembler.Pieces

/-!
# What a source text adds to a program

Every line of a source that is accepted adds one piece and its labels. One line first,
and then all of them by induction:

> `isExtendedBy_of_statement`: an accepted line parses, has a piece, and extends the
> program by both.
> `isExtendedBy_of_emitLines`: so do all lines of a source without problems.
-/

namespace Stm8

/-- A line with the piece that it adds. -/
abbrev Entry := Line × Piece

/-- The offset of a label among lines, the first of which adds its piece at `start`. -/
def labelOffsetFrom? (start : Nat) : List Entry → String → Option Nat
  | [], _ => none
  | (line, piece) :: entries, name =>
    if line.labels.any (·.text == name) then some start
    else labelOffsetFrom? (start + piece.code.length) entries name

/-- The lines of a source, the first of which has the number behind `number` and stands
behind `offset` bytes. -/
def Line.parseAll (number offset : Nat) : List (List Char) → Except Problem (List Line)
  | [] => .ok []
  | text :: rest => do
    let line ← Line.parse (Assembler.withoutBreak text) (number + 1) offset
    let lines ← parseAll (number + 1) (offset + Text.width text) rest
    return line :: lines

namespace Assembler

/-! ## Labels -/

/-- The offset of a label. -/
def labelOffset? (a : Assembler) (name : String) : Option Nat :=
  a.labelIndex[name]?.map fun i => (a.labels[i]?.getD default).offset

/-- The index points at labels. -/
def IsIndexed (a : Assembler) : Prop :=
  ∀ (name : String) (i : Nat), a.labelIndex[name]? = some i → i < a.labels.length

/-- What defining labels in front of the next byte does. -/
structure IsLabelledBy (a : Assembler) (names : List String) (next : Assembler) : Prop where
  base : next.base = a.base
  externals : next.externals = a.externals
  code : next.code = a.code
  relocations : next.relocations = a.relocations
  diagnostics : next.diagnostics = a.diagnostics
  rejections : next.rejections = a.rejections
  indexed : next.IsIndexed
  labels : ∀ name, next.labelOffset? name =
    (a.labelOffset? name).or (if names.any (· == name) then some a.code.length else none)

theorem isLabelledBy_nil {a : Assembler} (ha : a.IsIndexed) : a.IsLabelledBy [] a :=
  ⟨rfl, rfl, rfl, rfl, rfl, rfl, ha, fun name => by simp⟩

/-- Labels in front of labels. -/
theorem IsLabelledBy.trans {a b c : Assembler} {names names' : List String}
    (hab : a.IsLabelledBy names b) (hbc : b.IsLabelledBy names' c) :
    a.IsLabelledBy (names ++ names') c where
  base := hbc.base.trans hab.base
  externals := hbc.externals.trans hab.externals
  code := hbc.code.trans hab.code
  relocations := hbc.relocations.trans hab.relocations
  diagnostics := hbc.diagnostics.trans hab.diagnostics
  rejections := hbc.rejections.trans hab.rejections
  indexed := hbc.indexed
  labels := by
    intro name
    rw [hbc.labels, hab.labels, hab.code, Option.or_assoc, List.any_append]
    cases names.any (· == name) <;> rfl

/-- A label that is defined points at the next byte. -/
theorem isLabelledBy_of_defineLabel {a next : Assembler} (ha : a.IsIndexed) {name : String}
    {span : Span} (h : a.defineLabel name span = (next, none)) : a.IsLabelledBy [name] next := by
  unfold defineLabel at h
  cases hname : a.labelIndex[name]? with
  | some i =>
    rw [hname] at h
    injection h with _ h
    cases h
  | none =>
    rw [hname] at h
    injection h with h
    subst h
    refine ⟨rfl, rfl, rfl, rfl, rfl, rfl, ?_, ?_⟩
    · intro other i hi
      show i < (a.labels ++ [_]).length
      rw [List.length_append]
      -- the new label is the last one; all others keep their places
      rw [Std.TreeMap.getElem?_insert] at hi
      by_cases hother : compare name other = .eq
      · rw [if_pos hother] at hi
        injection hi with hi
        subst hi
        exact Nat.lt_succ_self _
      · rw [if_neg hother] at hi
        exact Nat.lt_succ_of_lt (ha other i hi)
    · intro other
      unfold labelOffset?
      dsimp only
      rw [Std.TreeMap.getElem?_insert]
      by_cases hother : name = other
      · subst hother
        rw [if_pos Std.ReflCmp.compare_self, hname]
        simp
      · rw [if_neg fun heq => hother (Std.LawfulEqCmp.eq_of_compare heq)]
        cases hi : a.labelIndex[other]? with
        | none => simp [hother]
        | some i => simp [List.getElem?_append_left (ha other i hi)]

theorem isLabelledBy_of_defineLabels {ps : List Part} :
    ∀ {a next : Assembler}, a.IsIndexed → a.defineLabels ps = (next, none) →
      a.IsLabelledBy (ps.map (·.text)) next := by
  induction ps with
  | nil =>
    intro a next ha h
    injection h with h
    subst h
    exact isLabelledBy_nil ha
  | cons p ps ih =>
    intro a next ha h
    rw [defineLabels] at h
    rcases hdefine : a.defineLabel p.text p.span with ⟨labelled, _ | problem⟩
    · rw [hdefine, proceed_none] at h
      have hfirst := isLabelledBy_of_defineLabel ha hdefine
      exact hfirst.trans (ih hfirst.indexed h)
    · rw [hdefine, proceed_some] at h
      injection h with _ h
      cases h

/-! ## Lines -/

/-- What lines do that were not rejected: they put their pieces behind the program, and
their labels point at them. -/
structure IsExtendedBy (a : Assembler) (entries : List Entry) (next : Assembler) : Prop where
  base : next.base = a.base
  externals : next.externals = a.externals
  code : next.code = a.code ++ (Piece.concat (entries.map (·.2))).code
  relocations : next.relocations =
    a.relocations ++ (Piece.concat (entries.map (·.2))).relocations.map (·.shift a.code.length)
  diagnostics : next.diagnostics = a.diagnostics ++ (Piece.concat (entries.map (·.2))).diagnostics
  indexed : next.IsIndexed
  labels : ∀ name, next.labelOffset? name =
    (a.labelOffset? name).or (labelOffsetFrom? a.code.length entries name)

/-- One line in front of others. -/
theorem IsExtendedBy.cons {a b c : Assembler} {entry : Entry} {entries : List Entry}
    (hab : a.IsExtendedBy [entry] b) (hbc : b.IsExtendedBy entries c) :
    a.IsExtendedBy (entry :: entries) c := by
  have hcode : b.code = a.code ++ entry.2.code := by
    rw [hab.code]
    simp [Piece.concat, Piece.append]
  refine ⟨hbc.base.trans hab.base, hbc.externals.trans hab.externals, ?_, ?_, ?_,
    hbc.indexed, ?_⟩
  · rw [hbc.code, hcode, List.append_assoc]
    rfl
  · rw [hbc.relocations, hab.relocations, hcode]
    simp [Piece.concat, Piece.append, Relocation.shift_shift, Function.comp_def]
  · rw [hbc.diagnostics, hab.diagnostics]
    simp [Piece.concat, Piece.append]
  · intro name
    rw [hbc.labels, hab.labels, hcode, Option.or_assoc, List.length_append]
    -- the label of the first line, or else one behind its piece
    have hcons : ∀ behind, labelOffsetFrom? a.code.length (entry :: behind) name =
        if entry.1.labels.any (·.text == name) then some a.code.length
        else labelOffsetFrom? (a.code.length + entry.2.code.length) behind name := fun _ => rfl
    rw [hcons, hcons]
    cases entry.1.labels.any (·.text == name) <;> rfl

/-- The piece of a line stands behind its labels. -/
theorem isExtendedBy_extend {a b : Assembler} {line : Line}
    (h : a.IsLabelledBy (line.labels.map (·.text)) b) (piece : Piece) :
    a.IsExtendedBy [(line, piece)] (b.extend piece) := by
  have hone : Piece.concat [piece] = piece := by
    simp [Piece.concat, Piece.append]
  refine ⟨h.base, h.externals, ?_, ?_, ?_, h.indexed, ?_⟩
  · show b.code ++ piece.code = _
    rw [h.code, List.map_singleton, hone]
  · show b.relocations ++ piece.relocations.map (·.shift b.code.length) = _
    rw [h.relocations, h.code, List.map_singleton, hone]
  · show b.diagnostics ++ piece.diagnostics = _
    rw [h.diagnostics, List.map_singleton, hone]
  · intro name
    show b.labelOffset? name = _
    rw [h.labels, List.any_map]
    rfl

/-- The listing does not matter. -/
theorem IsExtendedBy.note {a next : Assembler} {entries : List Entry}
    (h : a.IsExtendedBy entries next) (offset : Nat) (text : String) :
    a.IsExtendedBy entries (next.note offset text) := by
  unfold Assembler.note
  split
  · exact ⟨h.base, h.externals, h.code, h.relocations, h.diagnostics, h.indexed, h.labels⟩
  · exact h

/-- A statement that is not rejected can be parsed and puts its piece behind the
program. -/
theorem isExtendedBy_of_statement {a : Assembler} (ha : a.IsIndexed) {text : List Char}
    {number offset : Nat} (h : (a.statement text number offset).2 = none) :
    ∃ entry, Line.parse text number offset = .ok entry.1 ∧ Piece.ofLine entry.1 = .ok entry.2 ∧
      a.IsExtendedBy [entry] (a.statement text number offset).1 := by
  have houtcome := a.isOutcome_statement text number offset
  rw [h] at houtcome
  generalize (a.statement text number offset).1 = next at houtcome ⊢
  cases houtcome with
  | @bare line _ hline hdefine hc =>
    refine ⟨(line, {}), hline, by rw [Piece.ofLine, hc], ?_⟩
    have hextend := isExtendedBy_extend (isLabelledBy_of_defineLabels ha hdefine) {}
    rw [extend_empty] at hextend
    exact hextend
  | @accepted line _ c p hline hdefine hc hpiece =>
    refine ⟨(line, p), hline, by rw [Piece.ofLine, hc]; exact hpiece, ?_⟩
    exact (isExtendedBy_extend (isLabelledBy_of_defineLabels ha hdefine) p).note _ _

/-! ## Rejections -/

theorem rejections_note (a : Assembler) (offset : Nat) (text : String) :
    (a.note offset text).rejections = a.rejections := by
  unfold note
  split <;> rfl

/-- Statements do not remember their rejections themselves. -/
theorem rejections_statement (a : Assembler) (text : List Char) (number offset : Nat) :
    (a.statement text number offset).1.rejections = a.rejections := by
  obtain ⟨labels, labelIndex, hnext | ⟨c, p, -, hnext⟩⟩ := a.statement_frame text number offset
  · rw [hnext]
  · rw [hnext, rejections_note]
    rfl

/-- Lines are assembled one after another. -/
theorem emitLines_cons (a : Assembler) (line : List Char) (lines : List (List Char)) :
    a.emitLines (line :: lines) =
      (((a.emitLine line).1.emitLines lines).1,
        (a.emitLine line).2.toList ++ ((a.emitLine line).1.emitLines lines).2) :=
  rfl

/-- Lines are rejected for good. -/
theorem rejections_emitLines {texts : List (List Char)} :
    ∀ a : Assembler, (a.emitLines texts).1.rejections = a.rejections ++ (a.emitLines texts).2 := by
  induction texts with
  | nil => intro a; exact (List.append_nil _).symm
  | cons text texts ih =>
    intro a
    have hline : (a.emitLine text).1.rejections = a.rejections ++ (a.emitLine text).2.toList := by
      show (a.statement _ _ _).1.rejections ++ _ = _
      rw [rejections_statement]
      rfl
    rw [emitLines_cons, ih, hline, List.append_assoc]

/-! ## Whole texts -/

/-- Lines that were not rejected can be parsed and put their pieces behind the program. -/
theorem isExtendedBy_of_emitLines {texts : List (List Char)} :
    ∀ {a : Assembler}, a.IsIndexed → (a.emitLines texts).2 = [] →
      ∃ entries, Line.parseAll a.lines a.sourceBytes texts = .ok (entries.map (·.1)) ∧
        (∀ entry ∈ entries, Piece.ofLine entry.1 = .ok entry.2) ∧
        a.IsExtendedBy entries (a.emitLines texts).1 := by
  induction texts with
  | nil =>
    intro a ha _
    refine ⟨[], rfl, fun entry hentry => absurd hentry List.not_mem_nil, ?_⟩
    constructor <;> simp [emitLines, Piece.concat, labelOffsetFrom?, ha]
  | cons text texts ih =>
    intro a ha h
    rw [emitLines_cons] at h ⊢
    obtain ⟨hfirst, hrest⟩ := List.append_eq_nil_iff.mp h
    have hnone : (a.emitLine text).2 = none := by
      cases hproblem : (a.emitLine text).2 with
      | none => rfl
      | some problem =>
        rw [hproblem] at hfirst
        cases hfirst
    obtain ⟨entry, hparse, hpiece, hentry⟩ := isExtendedBy_of_statement ha hnone
    -- counting lines leaves the program as it is
    have hnext : a.IsExtendedBy [entry] (a.emitLine text).1 :=
      ⟨hentry.base, hentry.externals, hentry.code, hentry.relocations, hentry.diagnostics,
        hentry.indexed, hentry.labels⟩
    obtain ⟨entries, hlines, hpieces, hentries⟩ := ih hnext.indexed hrest
    refine ⟨entry :: entries, ?_, List.forall_mem_cons.mpr ⟨hpiece, hpieces⟩, hnext.cons hentries⟩
    rw [Line.parseAll, hparse, ok_bind]
    show (Line.parseAll _ _ texts >>= _) = _
    rw [show Line.parseAll (a.lines + 1) (a.sourceBytes + Text.width text) texts = _ from hlines]
    rfl

/-- Lines without labels are not rejected if they can be parsed and have pieces. -/
theorem problems_emitLines_eq_nil {texts : List (List Char)} :
    ∀ {a : Assembler} {entries : List Entry},
      Line.parseAll a.lines a.sourceBytes texts = .ok (entries.map (·.1)) →
      (∀ entry ∈ entries, entry.1.labels = [] ∧ Piece.ofLine entry.1 = .ok entry.2) →
      (a.emitLines texts).2 = [] := by
  induction texts with
  | nil => intro a entries _ _; rfl
  | cons text texts ih =>
    intro a entries hparse hentries
    obtain ⟨line, hline, hparse⟩ := bind_eq_ok.mp hparse
    obtain ⟨lines, hlines, hparse⟩ := bind_eq_ok.mp hparse
    injection hparse with hparse
    cases entries with
    | nil => cases hparse
    | cons entry entries =>
      obtain ⟨rfl, rfl⟩ := List.cons.inj hparse
      rw [List.forall_mem_cons] at hentries
      obtain ⟨⟨hlabels, hpiece⟩, hentries⟩ := hentries
      -- a line without labels is rejected only for its command
      have hnone : (a.emitLine text).2 = none := by
        show (a.statement _ _ _).2 = none
        unfold statement
        rw [hline, withResult_ok]
        dsimp only
        rw [hlabels, defineLabels, proceed_none]
        unfold Piece.ofLine at hpiece
        cases hc : entry.1.command with
        | none => rfl
        | some c =>
          rw [hc] at hpiece
          dsimp only at hpiece ⊢
          rw [command_eq, hpiece, withResult_ok]
      rw [emitLines_cons, hnone, ih hlines hentries]
      rfl

end Assembler

end Stm8
