import Mathlib.Data.List.Basic
import Stm8.Proofs.Assembler.Uses
import Stm8.Session

/-!
# What is reported

Problems are found at different times: a statement is rejected when it is assembled, a
constant is noted when it is encoded, and symbols get their values at the very end. None of
them is lost, and none is reported twice:

> `error_accounting`: a session is finished if no source text in it was rejected, and else
> all rejections are reported. A program whose sums do not overflow is assembled if every
> statement is accepted and every value is right, and else its report is known to the last
> problem.
-/

namespace Stm8

/-! ## Reports -/

/-- Whether the report is on exactly these problems: on a single one as it is, or on several
that were collected once. -/
def Report.Lists (r : Report) (ps : List Problem) : Prop :=
  (∃ p, ps = [p] ∧ r = one p) ∨ (2 ≤ ps.length ∧ r = several (ps.map one))

theorem Report.lists_of_ofProblems? {ps : List Problem} {r : Report}
    (h : ofProblems? ps = some r) : r.Lists ps := by
  match ps with
  | [] => cases h
  | [p] => exact Or.inl ⟨p, rfl, (Option.some.inj h).symm⟩
  | p :: q :: ps => exact Or.inr ⟨Nat.le_add_left 2 ps.length, (Option.some.inj h).symm⟩

/-- There is a report on problems, unless there are none. -/
theorem Report.ofProblems?_cases (ps : List Problem) :
    (ps = [] ∧ ofProblems? ps = none) ∨
      (ps ≠ [] ∧ ∃ report, ofProblems? ps = some report ∧ report.Lists ps) := by
  cases hreport : ofProblems? ps with
  | none => exact Or.inl ⟨ofProblems?_eq_none_iff.mp hreport, rfl⟩
  | some report =>
    refine Or.inr ⟨?_, report, rfl, lists_of_ofProblems? hreport⟩
    rintro rfl
    cases hreport

/-- Whether the call assembles source text. -/
def Step.isText : Step → Bool
  | emit _ => true
  | _ => false

namespace Assembler

/-! ## Sessions -/

/-- The problems that the calls of a session report which assemble source text. -/
def emitted (a : Assembler) : List Step → List Problem
  | [] => []
  | step :: steps =>
    (if step.isText then (a.perform step).2 else []) ++ (a.perform step).1.emitted steps

theorem emitted_append (a : Assembler) (front behind : List Step) :
    a.emitted (front ++ behind) = a.emitted front ++ (a.run front).emitted behind := by
  induction front generalizing a with
  | nil => rfl
  | cons step front ih =>
    rw [List.cons_append, emitted, emitted, ih, List.append_assoc]
    rfl

/-- There are some exactly if one of the texts has some. -/
theorem emitted_ne_nil_iff (a : Assembler) (steps : List Step) :
    a.emitted steps ≠ [] ↔
      ∃ front source behind, steps = front ++ .emit source :: behind ∧
        ((a.run front).emit source).2 ≠ [] := by
  constructor
  · intro h
    induction steps generalizing a with
    | nil => exact absurd rfl h
    | cons step steps ih =>
      rw [emitted, Ne, List.append_eq_nil_iff, Classical.not_and_iff_not_or_not] at h
      rcases h with h | h
      · cases step with
        | emit source => exact ⟨[], source, steps, rfl, h⟩
        | _ => exact absurd rfl h
      · obtain ⟨front, source, behind, rfl, hproblems⟩ := ih _ h
        exact ⟨step :: front, source, behind, rfl, hproblems⟩
  · rintro ⟨front, source, behind, rfl, hproblems⟩ hnil
    rw [emitted_append, emitted, List.append_eq_nil_iff, List.append_eq_nil_iff] at hnil
    exact hproblems hnil.2.1

/-- An instruction that was built is accepted or refused at once. -/
theorem rejections_instruction (a : Assembler) (m : String) (ops : List Operand) :
    (a.instruction m ops).1.rejections = a.rejections := by
  rcases a.instruction_cases m ops with ⟨problem, hrefused⟩ | ⟨f, e, text, -, -, hplaced⟩
  · rw [hrefused]
  · rw [hplaced, rejections_note]
    rfl

/-- Only source text is remembered when it is rejected. -/
theorem rejections_perform (a : Assembler) (step : Step) :
    (a.perform step).1.rejections =
      a.rejections ++ if step.isText then (a.perform step).2 else [] := by
  cases step with
  | emit source =>
    rw [Step.isText, if_pos rfl]
    exact rejections_emitLines a
  | label name =>
    rw [show Step.isText (.label name) = false from rfl, if_neg Bool.false_ne_true,
      List.append_nil, perform]
    unfold defineLabel
    cases a.labelIndex[name]? <;> rfl
  | instruction m ops =>
    rw [show Step.isText (.instruction m ops) = false from rfl, if_neg Bool.false_ne_true,
      List.append_nil, perform_instruction, outcome_fst, rejections_instruction]
  | _ => exact (List.append_nil _).symm

theorem rejections_run (a : Assembler) (steps : List Step) :
    (a.run steps).rejections = a.rejections ++ a.emitted steps := by
  induction steps generalizing a with
  | nil => exact (List.append_nil _).symm
  | cons step steps ih =>
    show ((a.perform step).1.run steps).rejections = _
    rw [ih, rejections_perform, List.append_assoc]
    rfl

/-- A session is finished, or all its rejections are reported. -/
theorem finish_run_cases (steps : List Step) :
    (emitted {} steps = [] ∧ ∃ image, (run {} steps).finish = .ok image) ∨
      (emitted {} steps ≠ [] ∧
        ∃ report, (run {} steps).finish = .error report ∧ report.Lists (emitted {} steps)) := by
  have hrejections : (run {} steps).rejections = emitted {} steps := rejections_run {} steps
  rw [finish, hrejections]
  rcases Report.ofProblems?_cases (emitted {} steps) with
    ⟨hnil, hnone⟩ | ⟨hne, report, hsome, hlists⟩
  · rw [hnone]
    exact Or.inl ⟨hnil, _, rfl⟩
  · rw [hsome]
    exact Or.inr ⟨hne, report, rfl, hlists⟩

end Assembler

/-! ## Programs -/

/-- What it means that entries are the lines of a source text with their pieces. -/
structure IsRead (source : String) (entries : List Entry) : Prop where
  /-- The text falls into the lines. -/
  lines : Line.parseAll 0 0 (Assembler.splitLines source.toList) = .ok (entries.map (·.1))
  /-- Each line has its piece. -/
  pieces : ∀ entry ∈ entries, Piece.ofLine entry.1 = .ok entry.2

/-- What is wrong with the values of a program: constants that are out of range, then
symbols whose numbers are, then symbols without values. -/
def valueProblems (base : UInt32) (value? : String → Option Int) (us : List Use) :
    List Problem :=
  us.filterMap Use.note? ++ us.filterMap (Use.failure? base value?) ++
    us.filterMap (Use.missing? value?)

/-- Nothing is wrong if all values are right. -/
theorem valueProblems_eq_nil_iff {base : UInt32} {value? : String → Option Int} {us : List Use} :
    valueProblems base value? us = [] ↔ ∀ u ∈ us, u.IsRight base value? := by
  unfold valueProblems
  simp only [List.append_eq_nil_iff, List.filterMap_eq_nil_iff, Use.isRight_iff]
  constructor
  · rintro ⟨⟨hnotes, hfailures⟩, hmissing⟩ u hu
    exact ⟨hnotes u hu, hfailures u hu, hmissing u hu⟩
  · intro h
    exact ⟨⟨fun u hu => (h u hu).1, fun u hu => (h u hu).2.1⟩, fun u hu => (h u hu).2.2⟩

section

variable {source : String} {base : UInt32} {externals : List (String × UInt32)}

open Assembler (empty)

/-- The problems of an accepted program are those of its values, unless adding up
overflows. -/
theorem exists_problems_eq (h : ((empty base externals).emit source).2 = [])
    (hsums : assembleOverflows source base externals = false) :
    ∃ entries, IsRead source entries ∧
      ((empty base externals).emit source).1.image.problems =
        valueProblems base (entryValue? base externals entries) (usesFrom 0 entries) := by
  obtain ⟨entries, hlines, hpieces, hentries⟩ := exists_entries h
  refine ⟨entries, ⟨hlines, hpieces⟩, ?_⟩
  replace hsums := (Assembler.overflows_eq_false_iff (rejections_emit.trans h)).mp hsums
  -- only the last state counts from here on
  generalize ((empty base externals).emit source).1 = a at hentries hsums
  obtain ⟨known, hempty, -⟩ := Assembler.empty_spec base externals
  have huses := Piece.hasUses_concat hpieces
  have hvalue := Assembler.symbolValue?_of_isExtendedBy hentries
  rw [hempty] at hentries
  have hbase : a.base = base := hentries.base
  have hcode : a.code = (Piece.concat (entries.map (·.2))).code := hentries.code
  have hdiagnostics : a.diagnostics = (usesFrom 0 entries).filterMap Use.note? :=
    hentries.diagnostics.trans huses.diagnostics
  have hrequests : a.relocations = (Piece.concat (entries.map (·.2))).relocations := by
    rw [hentries.relocations]
    simp [Relocation.shift]
  have hclosed : ∀ r ∈ a.relocations, r.FitsIn a.code.length := by
    rw [hrequests, hcode]
    exact Piece.isClosed_concat (isClosed_of_pieces hpieces)
  have hrelocations : a.relocations = (usesFrom 0 entries).filterMap Use.request? :=
    hrequests.trans huses.relocations
  have hfailures : (usesFrom 0 entries).filterMap (fun u =>
      u.request?.bind (·.problem? base (entryValue? base externals entries))) =
        (usesFrom 0 entries).filterMap
          (Use.failure? base (entryValue? base externals entries)) := by
    rw [hrelocations, hvalue, hbase] at hsums
    exact List.filterMap_congr fun u hu => Use.problem?_request? fun q target hq htarget =>
      hsums q (List.mem_filterMap.mpr ⟨u, hu, hq⟩) target htarget
  show a.link.diagnostics ++ a.link.leftover.map _ = _
  rw [Assembler.link_eq hclosed, hvalue, hbase, hdiagnostics, hrelocations, valueProblems,
    List.filterMap_filterMap, hfailures, List.filter_filterMap, List.map_filterMap]
  simp only [Use.leftover_request?]

/-- A text is read in one way only. -/
theorem IsRead.eq {entries entries' : List Entry} (h : IsRead source entries)
    (h' : IsRead source entries') : entries = entries' := by
  have hlines := h.lines.symm.trans h'.lines
  injection hlines with hlines
  exact eq_of_lines hlines h.pieces h'.pieces

/-- A program whose statements are accepted is reported on if there are problems. -/
theorem assemble_eq_error {report : Report} (h : ((empty base externals).emit source).2 = [])
    (hreport : Report.ofProblems? ((empty base externals).emit source).1.image.problems =
      some report) : assemble source base externals = .error report := by
  show (((empty base externals).emit source).1.finish >>= _) = _
  rw [Assembler.finish_eq_image (rejections_emit.trans h), ok_bind, hreport]

/-- A program is assembled unless statements are rejected or values are wrong. -/
theorem assemble_cases (hsums : assembleOverflows source base externals = false) :
    let rejected := ((empty base externals).emit source).2
    (rejected ≠ [] ∧
        ∃ report, assemble source base externals = .error report ∧ report.Lists rejected) ∨
      (rejected = [] ∧ ∃ entries, IsRead source entries ∧
        let problems := valueProblems base (entryValue? base externals entries)
          (usesFrom 0 entries)
        ((problems = [] ∧ ∃ bytes, assemble source base externals = .ok bytes) ∨
          (problems ≠ [] ∧
            ∃ report, assemble source base externals = .error report ∧
              report.Lists problems))) := by
  intro rejected
  rcases Report.ofProblems?_cases rejected with ⟨hnil, -⟩ | ⟨hne, report, hsome, hlists⟩
  · obtain ⟨entries, hread, hproblems⟩ := exists_problems_eq hnil hsums
    refine Or.inr ⟨hnil, entries, hread, ?_⟩
    rcases Report.ofProblems?_cases (valueProblems base (entryValue? base externals entries)
      (usesFrom 0 entries)) with ⟨hnone, hright⟩ | ⟨hsome, report, hwrong, hlists⟩
    · rw [← hproblems, Assembler.report_eq_none_iff] at hright
      have hok := Assembler.assemble_eq_ok_iff.mpr ⟨rejections_emit.trans hnil, hright, rfl⟩
      exact Or.inl ⟨hnone, _, hok⟩
    · refine Or.inr ⟨hsome, report, assemble_eq_error hnil ?_, hlists⟩
      rw [hproblems]
      exact hwrong
  · refine Or.inl ⟨hne, report, ?_, hlists⟩
    show (((empty base externals).emit source).1.finish >>= _) = _
    rw [Assembler.finish, rejections_emit, hsome]
    rfl

end

/-- **Every problem is reported, once and in order.** A session cannot be finished exactly
if a source text in it had problems; then the report lists those of all texts, one after
another, and not those of other calls. A program whose sums do not overflow is assembled
exactly if every statement is accepted and every value is right, be it a constant in the range
of its field or cell, or a symbol with a value whose number is. Otherwise the report lists the
rejected statements if there are any, or else the constants that are out of range, statement by
statement and in each instruction in the order of its fields, then the symbols whose numbers are
out of range, then the symbols without values. -/
theorem error_accounting :
    (∀ steps : List Step,
      ((∃ report, (Assembler.run {} steps).finish = .error report) ↔
        ∃ front source behind, steps = front ++ .emit source :: behind ∧
          ((Assembler.run {} front).emit source).2 ≠ []) ∧
      ∀ report, (Assembler.run {} steps).finish = .error report →
        report.Lists (Assembler.emitted {} steps)) ∧
    ∀ (source : String) (base : UInt32) (externals : List (String × UInt32)),
      assembleOverflows source base externals = false →
      let rejected := ((Assembler.empty base externals).emit source).2
      ((∃ bytes, assemble source base externals = .ok bytes) ↔
        rejected = [] ∧ ∃ entries, IsRead source entries ∧
          ∀ u ∈ usesFrom 0 entries, u.IsRight base (entryValue? base externals entries)) ∧
      ∀ report, assemble source base externals = .error report →
        (rejected ≠ [] ∧ report.Lists rejected) ∨
          (rejected = [] ∧ ∃ entries, IsRead source entries ∧ report.Lists
            (valueProblems base (entryValue? base externals entries) (usesFrom 0 entries))) := by
  constructor
  · intro steps
    rw [← Assembler.emitted_ne_nil_iff]
    rcases Assembler.finish_run_cases steps with
      ⟨hnil, image, hfinish⟩ | ⟨hne, report, hfinish, hlists⟩
    · rw [hfinish]
      refine ⟨⟨fun ⟨_, h⟩ => ?_, fun hne => absurd hnil hne⟩, fun report h => ?_⟩
      · cases h
      · cases h
    · rw [hfinish]
      refine ⟨⟨fun _ => hne, fun _ => ⟨report, rfl⟩⟩, fun report' h => ?_⟩
      rw [← Except.error.inj h]
      exact hlists
  · intro source base externals hsums rejected
    rcases assemble_cases hsums with ⟨hne, report, hassemble, hlists⟩ |
      ⟨hnil, entries, hread, ⟨hright, bytes, hassemble⟩ | ⟨hwrong, report, hassemble, hlists⟩⟩
    · rw [hassemble]
      refine ⟨⟨fun ⟨_, h⟩ => ?_, fun h => absurd h.1 hne⟩, fun report' h => ?_⟩
      · cases h
      · rw [← Except.error.inj h]
        exact Or.inl ⟨hne, hlists⟩
    · rw [hassemble]
      rw [valueProblems_eq_nil_iff] at hright
      refine ⟨⟨fun _ => ⟨hnil, entries, hread, hright⟩, fun _ => ⟨bytes, rfl⟩⟩, fun report h => ?_⟩
      cases h
    · rw [hassemble]
      refine ⟨⟨fun ⟨_, h⟩ => ?_, fun ⟨_, entries', hread', hright⟩ => ?_⟩, fun report' h => ?_⟩
      · cases h
      · rw [hread'.eq hread, ← valueProblems_eq_nil_iff] at hright
        exact absurd hright hwrong
      · rw [← Except.error.inj h]
        exact Or.inr ⟨hnil, entries, hread, hlists⟩

/-- Problems of all three kinds, the last of which is written first. -/
theorem error_accounting_cells :
    let source := ".byte gone, port+300, 500"
    let externals := [("port", 1)]
    ∃ report, assemble source 0 externals = .error report ∧
      report.Lists [.outOfRange 500 (-0x80) 0xFF ⟨1, 23, 22, 3⟩,
        .outOfRange 301 0 0xFF ⟨1, 13, 12, 8⟩, .undefinedSymbol "gone" ⟨1, 7, 6, 4⟩] := by
  intro source externals
  have hstate : assembleOverflows source 0 externals = false ∧
      ((Assembler.empty 0 externals).emit source).2 = [] ∧
      ((Assembler.empty 0 externals).emit source).1.image.problems =
        [.outOfRange 500 (-0x80) 0xFF ⟨1, 23, 22, 3⟩,
          .outOfRange 301 0 0xFF ⟨1, 13, 12, 8⟩, .undefinedSymbol "gone" ⟨1, 7, 6, 4⟩] := by
    decide +kernel
  obtain ⟨hsums, hrejected, hproblems⟩ := hstate
  obtain ⟨entries, hread, hvalues⟩ := exists_problems_eq hrejected hsums
  obtain ⟨hok, herror⟩ := error_accounting.2 source 0 externals hsums
  rw [hproblems] at hvalues
  cases hassemble : assemble source 0 externals with
  | ok bytes =>
    -- all values would be right
    obtain ⟨-, entries', hread', hright⟩ := hok.mp ⟨bytes, hassemble⟩
    rw [hread'.eq hread, ← valueProblems_eq_nil_iff, ← hvalues] at hright
    cases hright
  | error report =>
    rcases herror report hassemble with ⟨hne, -⟩ | ⟨-, entries', hread', hlists⟩
    · exact absurd hrejected hne
    · rw [hread'.eq hread, ← hvalues] at hlists
      exact ⟨report, rfl, hlists⟩

/-- The constants of one instruction are reported in the order of its fields, and not in the
order in which they are written. -/
theorem not_ordered_assemble_mov :
    ∃ first second : Span, ∃ report, second.offset < first.offset ∧
      assemble "mov 0x12345,#0x1FF" = .error report ∧
      report.problems =
        [.outOfRange 0x1FF (-0x80) 0xFF first, .outOfRange 0x12345 0 0xFFFF second] ∧
      ((Assembler.empty 0 []).emit "mov 0x12345,#0x1FF").2 = [] ∧
      ((Assembler.empty 0 []).emit "mov 0x12345,#0x1FF").1.diagnostics = report.problems := by
  let problems : List Problem :=
    [.outOfRange 0x1FF (-0x80) 0xFF ⟨1, 13, 12, 6⟩, .outOfRange 0x12345 0 0xFFFF ⟨1, 5, 4, 7⟩]
  have hemitted : ((Assembler.empty 0 []).emit "mov 0x12345,#0x1FF").2 = [] ∧
      ((Assembler.empty 0 []).emit "mov 0x12345,#0x1FF").1.diagnostics = problems ∧
      ((Assembler.empty 0 []).emit "mov 0x12345,#0x1FF").1.image.problems = problems := by
    decide +kernel
  obtain ⟨hrejected, hdiagnostics, hproblems⟩ := hemitted
  have hreport : Report.ofProblems? problems = some (.several (problems.map .one)) := rfl
  have hlisted := Report.problems_of_ofProblems? hreport
  have herror := assemble_eq_error hrejected
    ((congrArg Report.ofProblems? hproblems).trans hreport)
  exact ⟨_, _, _, by decide, herror, hlisted, hrejected, hdiagnostics.trans hlisted.symm⟩

end Stm8
