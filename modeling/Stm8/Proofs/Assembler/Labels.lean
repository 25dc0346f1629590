import Stm8.Proofs.Assembler.Order
import Stm8.Proofs.Assembler.Pending

/-!
# The table of labels

An assembler keeps its labels twice: in a list, in the order of their definitions, and in
an index that maps each name to its place in the list. A session is taken down as the list
of all definitions that it attempts (`attempts`), the failed ones included, and the table is
compared with it (`IsHistory`): one attempt first, then lines and calls, and whole sessions
by induction.

> `label_table`: list and index agree, an attempt fails exactly if there was one before it
> with the same name, and a program is finished with the address that the first attempt of
> each name gives it.
-/

namespace Stm8

/-- An attempt to define a label. Its offset is the length of the code at that moment. -/
structure Attempt extends Label where
  /-- Why it failed, if it did. -/
  problem : Option Problem
  deriving DecidableEq, Repr

namespace Assembler

/-! ## What a session attempts to define -/

/-- The attempt to define the label in front of the next byte. -/
def attempt (a : Assembler) (p : Part) : Attempt where
  name := p.text
  offset := a.code.length
  span := p.span
  problem := (a.defineLabel p.text p.span).2

/-- The attempts to define labels one after another, up to the first that fails. -/
def attemptAll (a : Assembler) : List Part → List Attempt
  | [] => []
  | p :: ps =>
    a.attempt p ::
      match a.defineLabel p.text p.span with
      | (next, none) => next.attemptAll ps
      | (_, some _) => []

/-- The definitions that a source line attempts. -/
def lineAttempts (a : Assembler) (line : List Char) : List Attempt :=
  match Line.parse (withoutBreak line) (a.lines + 1) a.sourceBytes with
  | .ok l => a.attemptAll l.labels
  | .error _ => []

/-- The definitions that some source lines attempt. -/
def linesAttempts (a : Assembler) : List (List Char) → List Attempt
  | [] => []
  | line :: lines => a.lineAttempts line ++ (a.emitLine line).1.linesAttempts lines

/-- The definitions that a call attempts. -/
def stepAttempts (a : Assembler) : Step → List Attempt
  | .emit source => a.linesAttempts (splitLines source.toList)
  | .label name => [a.attempt ⟨name, .nowhere⟩]
  | _ => []

/-- The definitions that a session attempts. -/
def attempts (a : Assembler) : List Step → List Attempt
  | [] => []
  | step :: steps => a.stepAttempts step ++ (a.perform step).1.attempts steps

/-- The attempts that did not fail. -/
def definitions (log : List Attempt) : List Attempt :=
  log.filter (·.problem.isNone)

/-! ## The table after some attempts -/

/-- An attempt fails if there was one before it with the same name. -/
def HasOutcomes (log : List Attempt) : Prop :=
  ∀ before t after, log = before ++ t :: after →
    t.problem = (before.find? (·.name == t.name)).map fun first =>
      .duplicateLabel t.name t.span first.span

/-- What the table of labels has to do with the attempts so far. -/
structure IsHistory (a : Assembler) (log : List Attempt) : Prop where
  /-- The list has the definitions. -/
  labels : a.labels = (definitions log).map Attempt.toLabel
  /-- The index has the places of the names in the list. -/
  index : ∀ (name : String) (i : Nat),
    a.labelIndex[name]? = some i ↔ ∃ label, a.labels[i]? = some label ∧ label.name = name
  /-- The attempts failed that had to fail. -/
  outcomes : HasOutcomes log
  /-- Later labels stand farther behind. -/
  sorted : a.labels.Pairwise (·.offset ≤ ·.offset)
  /-- No label stands behind the code. -/
  inside : ∀ label ∈ a.labels, label.offset ≤ a.code.length

variable {a b : Assembler} {log : List Attempt}

theorem isHistory_nil : IsHistory {} [] where
  labels := rfl
  index := by
    intro name i
    rw [show ({} : Assembler).labelIndex[name]? = none from Std.TreeMap.getElem?_emptyc]
    simp
  outcomes := by simp [HasOutcomes]
  sorted := .nil
  inside := by simp

/-- More code does not change the table. -/
theorem IsHistory.of_frame (h : IsHistory a log) (hlabels : b.labels = a.labels)
    (hindex : b.labelIndex = a.labelIndex) (hcode : a.code.length ≤ b.code.length) :
    IsHistory b log where
  labels := hlabels.trans h.labels
  index := by
    rw [hindex, hlabels]
    exact h.index
  outcomes := h.outcomes
  sorted := by
    rw [hlabels]
    exact h.sorted
  inside := by
    rw [hlabels]
    exact fun label hlabel => Nat.le_trans (h.inside label hlabel) hcode

/-- The first attempt to define a name does not fail. -/
theorem HasOutcomes.problem_first (h : HasOutcomes log) {name : String} {first : Attempt}
    (hfirst : log.find? (·.name == name) = some first) : first.problem = none := by
  obtain ⟨hname, before, after, hlog, hbefore⟩ := List.find?_eq_some_iff_append.mp hfirst
  rw [h before first after hlog, Option.map_eq_none_iff, List.find?_eq_none,
    show first.name = name from beq_iff_eq.mp hname]
  intro t ht htname
  have hother := hbefore t ht
  rw [htname] at hother
  cases hother

/-- The first attempt to define a name is its definition. -/
theorem HasOutcomes.find?_definitions (h : HasOutcomes log) (name : String) :
    (definitions log).find? (·.name == name) = log.find? (·.name == name) := by
  cases hfirst : log.find? (·.name == name) with
  | none =>
    rw [List.find?_eq_none] at hfirst ⊢
    exact fun t ht => hfirst t (List.mem_filter.mp ht).1
  | some first =>
    have hnone := h.problem_first hfirst
    rw [List.find?_eq_some_iff_append] at hfirst
    obtain ⟨hname, before, after, rfl, hbefore⟩ := hfirst
    refine List.find?_eq_some_iff_append.mpr
      ⟨hname, definitions before, definitions after, ?_, fun t ht => ?_⟩
    · unfold definitions
      rw [List.filter_append, List.filter_cons_of_pos (by rw [hnone]; rfl)]
    · exact hbefore t (List.mem_filter.mp ht).1

theorem HasOutcomes.front {front behind : List Attempt} (h : HasOutcomes (front ++ behind)) :
    HasOutcomes front := by
  intro before t after hfront
  refine h before t (after ++ behind) ?_
  rw [hfront, List.append_assoc, List.cons_append]

/-- Under every name the table has the first attempt to define it. -/
theorem IsHistory.getElem?_labelIndex (h : IsHistory a log) (name : String) :
    a.labelIndex[name]?.bind (a.labels[·]?) =
      (log.find? (·.name == name)).map Attempt.toLabel := by
  cases hfind : log.find? (·.name == name) with
  | none =>
    cases hindex : a.labelIndex[name]? with
    | none => rfl
    | some i =>
      -- the label in the list comes from an attempt
      obtain ⟨label, hlabel, hname⟩ := (h.index name i).mp hindex
      have hmem := List.mem_of_getElem? hlabel
      rw [h.labels] at hmem
      obtain ⟨t, ht, rfl⟩ := List.mem_map.mp hmem
      exact absurd (beq_iff_eq.mpr hname)
        (List.find?_eq_none.mp hfind t (List.mem_filter.mp ht).1)
  | some first =>
    obtain ⟨hname, -⟩ := List.find?_eq_some_iff_append.mp hfind
    replace hname : first.name = name := beq_iff_eq.mp hname
    have hmem : first.toLabel ∈ a.labels := by
      rw [h.labels]
      refine List.mem_map_of_mem (List.mem_filter.mpr ⟨List.mem_of_find?_eq_some hfind, ?_⟩)
      rw [h.outcomes.problem_first hfind]
      rfl
    obtain ⟨i, hi⟩ := List.getElem?_of_mem hmem
    rw [(h.index name i).mpr ⟨first.toLabel, hi, hname⟩, Option.bind_some, hi]
    rfl

/-- A name is taken exactly if there was an attempt to define it. -/
theorem IsHistory.defineLabel_eq (h : IsHistory a log) (name : String) (span : Span) :
    a.defineLabel name span =
      match log.find? (·.name == name) with
      | some first => (a, some (.duplicateLabel name span first.span))
      | none => ({ a with
          labelIndex := a.labelIndex.insert name a.labels.length
          labels := a.labels ++ [⟨name, a.code.length, span⟩] }, none) := by
  have htable := h.getElem?_labelIndex name
  unfold defineLabel
  cases hindex : a.labelIndex[name]? with
  | none =>
    rw [hindex, Option.bind_none] at htable
    rw [Option.map_eq_none_iff.mp htable.symm]
  | some i =>
    obtain ⟨label, hlabel, -⟩ := (h.index name i).mp hindex
    rw [hindex, Option.bind_some, hlabel] at htable
    obtain ⟨first, hfirst, rfl⟩ := Option.map_eq_some_iff.mp htable.symm
    dsimp only
    rw [hfirst, hlabel]
    rfl

/-! ## One attempt -/

/-- What is put behind attempts has the outcome that it should have. -/
theorem IsHistory.outcomes_concat (h : IsHistory a log) {t : Attempt}
    (ht : t.problem = (log.find? (·.name == t.name)).map fun first =>
      .duplicateLabel t.name t.span first.span) :
    HasOutcomes (log ++ [t]) := by
  intro before s after heq
  rcases after.eq_nil_or_concat with rfl | ⟨front, last, rfl⟩
  · obtain ⟨rfl, hts⟩ := List.append_inj' heq rfl
    obtain rfl := List.head_eq_of_cons_eq hts
    exact ht
  · rw [List.concat_eq_append, ← List.cons_append, ← List.append_assoc] at heq
    exact h.outcomes before s front (List.append_inj' heq rfl).1

/-- The index with one more name has the places in the list with one more label. -/
theorem IsHistory.index_concat (h : IsHistory a log) {name : String}
    (hnew : a.labelIndex[name]? = none) (offset : Nat) (span : Span) (other : String) (i : Nat) :
    (a.labelIndex.insert name a.labels.length)[other]? = some i ↔
      ∃ label, (a.labels ++ [⟨name, offset, span⟩])[i]? = some label ∧ label.name = other := by
  have hfront : ∀ label, a.labels[i]? = some label → i < a.labels.length := by
    intro label hlabel
    exact (List.getElem?_eq_some_iff.mp hlabel).1
  rw [Std.TreeMap.getElem?_insert]
  by_cases hother : name = other
  · subst hother
    rw [if_pos Std.ReflCmp.compare_self]
    constructor
    · intro hi
      obtain rfl := Option.some.inj hi
      exact ⟨_, List.getElem?_concat_length, rfl⟩
    · rintro ⟨label, hlabel, hname⟩
      -- it cannot be one of the old labels, none of which has the name
      rcases Nat.lt_trichotomy i a.labels.length with hi | hi | hi
      · rw [List.getElem?_append_left hi] at hlabel
        have hold := (h.index name i).mpr ⟨label, hlabel, hname⟩
        rw [hnew] at hold
        cases hold
      · rw [hi]
      · rw [List.getElem?_eq_none (by rw [List.length_append, List.length_singleton]; omega)]
          at hlabel
        cases hlabel
  · rw [if_neg fun heq => hother (Std.LawfulEqCmp.eq_of_compare heq), h.index other i]
    refine exists_congr fun label => ?_
    constructor
    · rintro ⟨hlabel, hname⟩
      exact ⟨by rw [List.getElem?_append_left (hfront label hlabel), hlabel], hname⟩
    · rintro ⟨hlabel, hname⟩
      by_cases hi : i < a.labels.length
      · rw [List.getElem?_append_left hi] at hlabel
        exact ⟨hlabel, hname⟩
      · -- the new label has another name
        rw [List.getElem?_append_right (Nat.not_lt.mp hi)] at hlabel
        obtain rfl := List.mem_singleton.mp (List.mem_of_getElem? hlabel)
        exact absurd hname hother

/-- One attempt. -/
theorem IsHistory.attempt (h : IsHistory a log) (p : Part) :
    IsHistory (a.defineLabel p.text p.span).1 (log ++ [a.attempt p]) := by
  have hdefine := h.defineLabel_eq p.text p.span
  have houtcome : (a.attempt p).problem =
      (log.find? (·.name == (a.attempt p).name)).map fun first =>
        .duplicateLabel (a.attempt p).name (a.attempt p).span first.span := by
    unfold Assembler.attempt
    dsimp only
    rw [hdefine]
    cases log.find? (·.name == p.text) <;> rfl
  have houtcomes := h.outcomes_concat houtcome
  cases hfind : log.find? (·.name == p.text) with
  | some first =>
    rw [hfind] at hdefine
    have hfailed : (a.attempt p).problem.isNone = false := by
      rw [houtcome, show log.find? (·.name == (a.attempt p).name) = some first from hfind]
      rfl
    rw [hdefine]
    refine ⟨?_, h.index, houtcomes, h.sorted, h.inside⟩
    rw [definitions, List.filter_append,
      List.filter_cons_of_neg (by rw [hfailed]; exact Bool.false_ne_true), List.filter_nil,
      List.append_nil]
    exact h.labels
  | none =>
    rw [hfind] at hdefine
    have hdefined : (a.attempt p).problem.isNone = true := by
      rw [houtcome, show log.find? (·.name == (a.attempt p).name) = none from hfind]
      rfl
    have hnew : a.labelIndex[p.text]? = none := by
      have htable := h.getElem?_labelIndex p.text
      rw [hfind] at htable
      cases hindex : a.labelIndex[p.text]? with
      | none => rfl
      | some i =>
        obtain ⟨label, hlabel, -⟩ := (h.index p.text i).mp hindex
        rw [hindex, Option.bind_some, hlabel] at htable
        cases htable
    rw [hdefine]
    refine ⟨?_, h.index_concat hnew _ _, houtcomes, ?_, ?_⟩
    · show a.labels ++ [_] = _
      rw [h.labels, definitions, definitions, List.filter_append,
        List.filter_cons_of_pos (by rw [hdefined]), List.map_append]
      rfl
    · show (a.labels ++ [_]).Pairwise _
      rw [List.pairwise_append]
      refine ⟨h.sorted, List.pairwise_singleton .., fun label hlabel last hlast => ?_⟩
      rw [List.mem_singleton.mp hlast]
      exact h.inside label hlabel
    · show ∀ label ∈ a.labels ++ [_], label.offset ≤ a.code.length
      rw [List.forall_mem_append, List.forall_mem_singleton]
      exact ⟨h.inside, Nat.le_refl _⟩

/-! ## Lines -/

theorem IsHistory.attemptAll {ps : List Part} :
    ∀ {a : Assembler} {log : List Attempt}, IsHistory a log →
      IsHistory (a.defineLabels ps).1 (log ++ a.attemptAll ps) := by
  induction ps with
  | nil =>
    intro a log h
    rw [Assembler.attemptAll, List.append_nil]
    exact h
  | cons p ps ih =>
    intro a log h
    have hfirst := h.attempt p
    rw [Assembler.attemptAll, defineLabels]
    rcases hdefine : a.defineLabel p.text p.span with ⟨next, _ | problem⟩
    · rw [hdefine] at hfirst
      rw [List.append_cons]
      exact ih hfirst
    · rw [hdefine] at hfirst
      exact hfirst

/-- Source text that is kept is no part of the program. -/
theorem note_frame (a : Assembler) (offset : Nat) (text : String) :
    (a.note offset text).labels = a.labels ∧ (a.note offset text).labelIndex = a.labelIndex ∧
      (a.note offset text).code = a.code := by
  unfold note
  split <;> exact ⟨rfl, rfl, rfl⟩

/-- A piece behind the program does not change the table, nor does a note on it. -/
theorem IsHistory.extend (h : IsHistory a log) (p : Piece) (offset : Nat) (text : String) :
    IsHistory ((a.extend p).note offset text) log := by
  obtain ⟨hlabels, hindex, hcode⟩ := (a.extend p).note_frame offset text
  refine h.of_frame hlabels hindex ?_
  rw [hcode]
  exact (List.length_append ▸ Nat.le_add_right _ _ : a.code.length ≤ (a.code ++ p.code).length)

/-- The labels of a line count, whatever becomes of its command. -/
theorem IsHistory.emitLine (h : IsHistory a log) (line : List Char) :
    IsHistory (a.emitLine line).1 (log ++ a.lineAttempts line) := by
  have hlabels : ∀ {l : Line} {next : Assembler} {problem? : Option Problem},
      Line.parse (withoutBreak line) (a.lines + 1) a.sourceBytes = .ok l →
      a.defineLabels l.labels = (next, problem?) →
        IsHistory next (log ++ a.lineAttempts line) := by
    intro l next problem? hparse hdefine
    have hall : IsHistory (a.defineLabels l.labels).1 (log ++ a.attemptAll l.labels) :=
      h.attemptAll
    rw [hdefine] at hall
    rw [lineAttempts, hparse]
    exact hall
  have hstatement : IsHistory (a.statement (withoutBreak line) (a.lines + 1) a.sourceBytes).1
      (log ++ a.lineAttempts line) := by
    have houtcome := a.isOutcome_statement (withoutBreak line) (a.lines + 1) a.sourceBytes
    generalize (a.statement (withoutBreak line) (a.lines + 1) a.sourceBytes).1 = next
      at houtcome ⊢
    generalize (a.statement (withoutBreak line) (a.lines + 1) a.sourceBytes).2 = problem?
      at houtcome
    cases houtcome with
    | unread hparse =>
      rw [lineAttempts, hparse, List.append_nil]
      exact h
    | taken hparse hdefine => exact hlabels hparse hdefine
    | bare hparse hdefine _ => exact hlabels hparse hdefine
    | refused hparse hdefine _ _ => exact hlabels hparse hdefine
    | accepted hparse hdefine _ _ => exact (hlabels hparse hdefine).extend _ _ _
  exact hstatement.of_frame rfl rfl (Nat.le_refl _)

theorem IsHistory.emitLines {lines : List (List Char)} :
    ∀ {a : Assembler} {log : List Attempt}, IsHistory a log →
      IsHistory (a.emitLines lines).1 (log ++ a.linesAttempts lines) := by
  induction lines with
  | nil =>
    intro a log h
    rw [linesAttempts, List.append_nil]
    exact h
  | cons line lines ih =>
    intro a log h
    rw [linesAttempts, ← List.append_assoc]
    exact ih (h.emitLine line)

/-! ## Calls -/

theorem IsHistory.perform (h : IsHistory a log) (step : Step) :
    IsHistory (a.perform step).1 (log ++ a.stepAttempts step) := by
  have hdata : ∀ bytes, IsHistory (a.data bytes) (log ++ []) := by
    intro bytes
    rw [List.append_nil]
    refine h.of_frame rfl rfl ?_
    exact (List.length_append ▸ Nat.le_add_right _ _ : a.code.length ≤ (a.code ++ bytes).length)
  cases step with
  | emit source => exact h.emitLines
  | label name => exact h.attempt ⟨name, .nowhere⟩
  | instruction m ops =>
    rw [perform_instruction, outcome_fst, show a.stepAttempts (.instruction m ops) = [] from rfl,
      List.append_nil]
    rcases a.instruction_cases m ops with ⟨problem, hrefused⟩ | ⟨f, e, text, -, -, hplaced⟩
    · rw [hrefused]
      exact h
    · rw [hplaced, place_eq]
      exact h.extend _ _ _
  | data bytes => exact hdata bytes
  | word value => exact hdata (bigEndian 2 value.toNat)
  | base address => exact (List.append_nil log).symm ▸ h.of_frame rfl rfl (Nat.le_refl _)
  | external name value => exact (List.append_nil log).symm ▸ h.of_frame rfl rfl (Nat.le_refl _)
  | listing => exact (List.append_nil log).symm ▸ h.of_frame rfl rfl (Nat.le_refl _)

theorem IsHistory.run {steps : List Step} :
    ∀ {a : Assembler} {log : List Attempt}, IsHistory a log →
      IsHistory (a.run steps) (log ++ a.attempts steps) := by
  induction steps with
  | nil =>
    intro a log h
    rw [attempts, List.append_nil]
    exact h
  | cons step steps ih =>
    intro a log h
    rw [attempts, ← List.append_assoc]
    exact ih (h.perform step)

/-! ## What is reported of failed attempts -/

/-- Labels of a line are reported if they cannot be defined. -/
theorem problems_attemptAll {ps : List Part} :
    ∀ {a : Assembler}, (a.attemptAll ps).filterMap (·.problem) = (a.defineLabels ps).2.toList := by
  induction ps with
  | nil => exact rfl
  | cons p ps ih =>
    intro a
    rw [attemptAll, defineLabels, List.filterMap_cons]
    unfold attempt
    rcases a.defineLabel p.text p.span with ⟨next, _ | problem⟩
    · exact ih
    · rfl

theorem problems_lineAttempts (a : Assembler) (line : List Char) :
    ((a.lineAttempts line).filterMap (·.problem)).Sublist (a.emitLine line).2.toList := by
  show List.Sublist _ (a.statement (withoutBreak line) (a.lines + 1) a.sourceBytes).2.toList
  have hlabels : ∀ {l : Line} {next : Assembler} {problem? : Option Problem},
      Line.parse (withoutBreak line) (a.lines + 1) a.sourceBytes = .ok l →
      a.defineLabels l.labels = (next, problem?) →
        (a.lineAttempts line).filterMap (·.problem) = problem?.toList := by
    intro l next problem? hparse hdefine
    rw [lineAttempts, hparse]
    exact problems_attemptAll.trans (by rw [hdefine])
  have houtcome := a.isOutcome_statement (withoutBreak line) (a.lines + 1) a.sourceBytes
  generalize (a.statement (withoutBreak line) (a.lines + 1) a.sourceBytes).1 = next at houtcome
  generalize (a.statement (withoutBreak line) (a.lines + 1) a.sourceBytes).2 = problem?
    at houtcome ⊢
  cases houtcome with
  | unread hparse =>
    rw [lineAttempts, hparse]
    exact List.nil_sublist _
  | taken hparse hdefine => exact hlabels hparse hdefine ▸ List.Sublist.refl _
  | bare hparse hdefine _ | refused hparse hdefine _ _ | accepted hparse hdefine _ _ =>
    have hnone : (a.lineAttempts line).filterMap (·.problem) = [] := hlabels hparse hdefine
    simp [hnone]

theorem problems_linesAttempts {lines : List (List Char)} :
    ∀ {a : Assembler},
      ((a.linesAttempts lines).filterMap (·.problem)).Sublist (a.emitLines lines).2 := by
  induction lines with
  | nil => exact List.nil_sublist _
  | cons line lines ih =>
    intro a
    rw [linesAttempts, List.filterMap_append]
    exact (a.problems_lineAttempts line).append ih

/-- All attempts that fail are reported. -/
theorem problems_attempts {steps : List Step} :
    ∀ {a : Assembler}, ((a.attempts steps).filterMap (·.problem)).Sublist (a.reported steps) := by
  induction steps with
  | nil => exact List.nil_sublist _
  | cons step steps ih =>
    intro a
    have hstep : ((a.stepAttempts step).filterMap (·.problem)).Sublist (a.perform step).2 := by
      cases step with
      | emit source => exact problems_linesAttempts
      | label name =>
        show List.Sublist ([a.attempt ⟨name, .nowhere⟩].filterMap (·.problem))
          (a.defineLabel name).2.toList
        rw [List.filterMap_cons]
        unfold attempt
        cases (a.defineLabel name).2 with
        | none => exact List.nil_sublist _
        | some problem => exact List.Sublist.refl _
      | _ => exact List.nil_sublist _
    rw [attempts, reported, List.filterMap_append]
    exact hstep.append ih

/-! ## What the table is used for -/

/-- No name is in the list twice. -/
theorem IsHistory.nodup (h : IsHistory a log) : (a.labels.map (·.name)).Nodup := by
  rw [List.Nodup, List.pairwise_map, List.pairwise_iff_getElem]
  intro i j hi hj hlt hname
  have hfirst := (h.index _ i).mpr ⟨_, List.getElem?_eq_getElem hi, rfl⟩
  have hsecond := (h.index _ j).mpr ⟨_, List.getElem?_eq_getElem hj, hname.symm⟩
  rw [hfirst] at hsecond
  exact Nat.ne_of_lt hlt (Option.some.inj hsecond)

/-- A label is the value of its name, whatever the name is outside the program. -/
theorem IsHistory.symbolValue? (h : IsHistory a log) {label : Label} (hlabel : label ∈ a.labels) :
    a.symbolValue? label.name = some (a.base.toNat + label.offset : Int) := by
  obtain ⟨i, hi⟩ := List.getElem?_of_mem hlabel
  rw [symbolValue?_of_label ((h.index label.name i).mpr ⟨label, hi, rfl⟩), hi]
  rfl

/-- A name that is a label means nothing outside the program. -/
theorem IsHistory.finish_defineExternal (h : IsHistory a log) {label : Label}
    (hlabel : label ∈ a.labels) (value : UInt32) :
    (a.defineExternal label.name value).finish = a.finish := by
  have hvalue : (a.defineExternal label.name value).symbolValue? = a.symbolValue? := by
    funext name
    cases hindex : a.labelIndex[name]? with
    | some i =>
      exact (symbolValue?_of_label (a := a.defineExternal label.name value) hindex).trans
        (symbolValue?_of_label hindex).symm
    | none =>
      rw [symbolValue?_of_no_label (a := a.defineExternal label.name value) hindex,
        symbolValue?_of_no_label hindex, getElem?_defineExternal a (label.name, value)]
      have hother : label.name ≠ name := by
        rintro rfl
        obtain ⟨i, hi⟩ := List.getElem?_of_mem hlabel
        rw [(h.index label.name i).mpr ⟨label, hi, rfl⟩] at hindex
        cases hindex
      rw [lastExternal?_singleton, if_neg hother]
      rfl
  have hlink : (a.defineExternal label.name value).link = a.link := by
    unfold link
    rw [resolve_congr (a := a.defineExternal label.name value) (b := a) rfl hvalue]
    rfl
  unfold finish
  rw [hlink]
  rfl

/-- The address of an offset. -/
theorem toNat_address (base : UInt32) (offset : Nat) :
    (base + UInt32.ofNat offset).toNat = (base.toNat + offset) % 2 ^ 32 := by
  rw [UInt32.toNat_add, UInt32.toNat_ofNat', Nat.add_mod_mod]

/-- The addresses in a finished program. -/
theorem IsHistory.labels_image (h : IsHistory a log) :
    a.image.labels =
      (definitions log).map fun d => (d.name, a.base + UInt32.ofNat d.offset) := by
  show a.labels.map _ = _
  rw [h.labels, List.map_map]
  rfl

theorem IsHistory.labelAddress?_image (h : IsHistory a log) (name : String) :
    a.image.labelAddress? name =
      ((definitions log).find? (·.name == name)).map
        fun d => a.base + UInt32.ofNat d.offset := by
  rw [Image.labelAddress?, h.labels_image, List.find?_map, Option.map_map]
  rfl

/-- What is left to a linker names no label. -/
theorem IsHistory.relocations_image (h : IsHistory a log)
    (hpending : ∀ r ∈ a.relocations, r.FitsIn a.code.length) {r : Relocation}
    (hr : r ∈ a.image.relocations) : a.image.labelAddress? r.symbol = none := by
  have hlink : a.image.relocations =
      a.relocations.filter fun r => (a.symbolValue? r.symbol).isNone :=
    congrArg Linking.leftover (link_eq hpending)
  rw [hlink, List.mem_filter, Option.isNone_iff_eq_none] at hr
  rw [h.labelAddress?_image, Option.map_eq_none_iff, List.find?_eq_none]
  intro d hd hname
  have hlabel : d.toLabel ∈ a.labels := by
    rw [h.labels]
    exact List.mem_map_of_mem hd
  have hvalue := h.symbolValue? hlabel
  rw [show d.toLabel.name = r.symbol from beq_iff_eq.mp hname, hr.2] at hvalue
  cases hvalue

/-! ## Sessions -/

/-- **The table of labels.** After every session the list of labels has the definitions of
the session in order, each of another name, and the index has their places. An attempt to
define a name fails exactly if the name was defined before, and the problem says where; it
is reported, and what the line or the call does afterwards does not matter. When the program
is finished, a defined name has the address of its definition, other names have none, and
requests for the name use the definition, whatever the name is outside the program. -/
theorem label_table (steps : List Step) :
    let a := run {} steps
    let defined := definitions (attempts {} steps)
    (a.labels = defined.map Attempt.toLabel ∧ (a.labels.map (·.name)).Nodup ∧
      (∀ (name : String) (i : Nat), a.labelIndex[name]? = some i ↔
        ∃ label, a.labels[i]? = some label ∧ label.name = name) ∧
      a.labels.Pairwise (·.offset ≤ ·.offset) ∧
      ∀ label ∈ a.labels, label.offset ≤ a.code.length) ∧
    ((∀ before t after, attempts {} steps = before ++ t :: after →
        t.problem = ((definitions before).find? (·.name == t.name)).map fun first =>
          .duplicateLabel t.name t.span first.span) ∧
      ((attempts {} steps).filterMap (·.problem)).Sublist (reported {} steps)) ∧
    ∀ image, a.finish = .ok image →
      image.labels.map (fun (name, address) => (name, address.toNat)) =
        defined.map (fun d => (d.name, (a.base.toNat + d.offset) % 2 ^ 32)) ∧
      (∀ name, (image.labelAddress? name).map (·.toNat) =
        (defined.find? (·.name == name)).map fun d => (a.base.toNat + d.offset) % 2 ^ 32) ∧
      (∀ r ∈ image.relocations, image.labelAddress? r.symbol = none) ∧
      ∀ d ∈ defined,
        (∀ value, (a.defineExternal d.name value).finish = .ok image) ∧
        ∀ r ∈ a.relocations, r.symbol = d.name → ∀ l : Linking, Linking.resolve a l r =
          let (code, problem) := r.apply l.code a.base (a.base.toNat + d.offset)
          { l with code, diagnostics := l.diagnostics ++ problem.toList } := by
  intro a defined
  have h : IsHistory a (attempts {} steps) := isHistory_nil.run
  refine ⟨⟨h.labels, h.nodup, h.index, h.sorted, h.inside⟩,
    ⟨fun before t after hlog => ?_, problems_attempts⟩, fun image hfinish => ?_⟩
  · have hbefore : HasOutcomes before := (hlog ▸ h.outcomes).front
    rw [hbefore.find?_definitions]
    exact h.outcomes before t after hlog
  · obtain rfl : image = a.image := by
      rcases a.finish_cases with ⟨-, hok⟩ | ⟨report, -, herror⟩
      · rw [hok] at hfinish
        exact (Except.ok.inj hfinish).symm
      · rw [herror] at hfinish
        cases hfinish
    have hpending : ∀ r ∈ a.relocations, r.FitsIn a.code.length :=
      (isPending_of_reachable ⟨steps, rfl⟩).inside
    refine ⟨?_, fun name => ?_, fun r => h.relocations_image hpending, fun d hd => ?_⟩
    · rw [h.labels_image, List.map_map]
      exact List.map_congr_left fun d _ => congrArg (Prod.mk d.name) (toNat_address _ _)
    · rw [h.labelAddress?_image, Option.map_map]
      exact congrArg (Option.map · _) (funext fun d => toNat_address _ _)
    · have hlabel : d.toLabel ∈ a.labels := by
        rw [h.labels]
        exact List.mem_map_of_mem hd
      refine ⟨fun value => (h.finish_defineExternal hlabel value).trans hfinish,
        fun r _ hsymbol l => ?_⟩
      have hvalue := h.symbolValue? hlabel
      rw [← hsymbol] at hvalue
      unfold Linking.resolve
      split
      · next hnone =>
        rw [hvalue] at hnone
        cases hnone
      · next target htarget =>
        obtain rfl := Option.some.inj (hvalue.symm.trans htarget)
        rfl

/-- A program that goes on behind the last address. One of its labels is defined again by a
call, which changes nothing, and the other one outside the program too. -/
theorem label_table_wrapped :
    let steps := [Step.base 0xFFFFFFFE, .external "last" 7, .emit "start: .db 1, 2, 3\nlast:",
      .label "start"]
    (attempts {} steps).filterMap (·.problem) =
        [.duplicateLabel "start" .nowhere ⟨1, 1, 0, 5⟩] ∧
      ∃ image, (run {} steps).finish = .ok image ∧
        (image.labelAddress? "last").map (·.toNat) = some 1 ∧
        (image.labelAddress? "other").map (·.toNat) = none := by
  intro steps
  have hbase : (run {} steps).base = 0xFFFFFFFE := by decide +kernel
  have hrejections : (run {} steps).rejections = [] := by decide +kernel
  have hlog : attempts {} steps =
      [⟨⟨"start", 0, ⟨1, 1, 0, 5⟩⟩, none⟩, ⟨⟨"last", 3, ⟨2, 1, 19, 4⟩⟩, none⟩,
        ⟨⟨"start", 3, .nowhere⟩, some (.duplicateLabel "start" .nowhere ⟨1, 1, 0, 5⟩)⟩] := by
    decide +kernel
  obtain ⟨-, -, hfinished⟩ := label_table steps
  obtain ⟨-, haddress, -⟩ := hfinished _ (finish_eq_image hrejections)
  rw [hlog, hbase] at haddress
  refine ⟨by rw [hlog]; rfl, _, finish_eq_image hrejections, ?_, ?_⟩
  · rw [haddress]
    decide
  · rw [haddress]
    decide

/-- A label counts though its line is rejected. -/
example : (attempts {} [.emit "a: .bogus", .label "a"]).map (·.problem) =
    [none, some (.duplicateLabel "a" .nowhere ⟨1, 1, 0, 1⟩)] := by decide +kernel

end Assembler

end Stm8
