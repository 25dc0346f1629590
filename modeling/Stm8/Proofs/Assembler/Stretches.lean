import Stm8.Proofs.Assembler.Order
import Stm8.Proofs.Instruction.Display
import Stm8.Proofs.Line.Splitting

/-!
# What source text is kept for

With its listing turned on, an assembler keeps the text of each statement together with an
offset. To say what the offset is for, a session is taken down as the list of all bytes that it
puts, one statement or call at a time, and with the text if one has to be kept (`stretches`).
The program and its notes are compared with the list (`IsNoted`), one line or call first, and
then the whole session by induction:

> `isNoted_run`: the code are the bytes of all stretches, and the notes are the texts of the
> stretches that have one, each with the offset of the first byte, of which there is one.
-/

namespace Stm8

open Stm8.Text

/-- The bytes that a statement or a call puts, and the text that is kept for them. -/
structure Stretch where
  bytes : List UInt8
  source : Option String := none
  deriving DecidableEq, Repr

/-- The notes on stretches, the first of which begins at `start`. -/
def notesFrom : Nat → List Stretch → List Note
  | _, [] => []
  | start, s :: rest =>
    (s.source.map (Note.mk start)).toList ++ notesFrom (start + s.bytes.length) rest

namespace Assembler

/-! ## What a session puts -/

/-- The text, if it has to be kept. -/
def kept (a : Assembler) (text : String) : Option String :=
  if a.listing then some text else none

/-- What a source line puts. -/
def lineStretches (a : Assembler) (line : List Char) : List Stretch :=
  match Line.parse (withoutBreak line) (a.lines + 1) a.sourceBytes with
  | .error _ => []
  | .ok l =>
    match (a.defineLabels l.labels).2, l.command with
    | none, some c =>
      match Piece.ofCommand c with
      | .ok p => [⟨p.code, a.kept c.text⟩]
      | .error _ => []
    | _, _ => []

/-- What some source lines put. -/
def linesStretches (a : Assembler) : List (List Char) → List Stretch
  | [] => []
  | line :: lines => a.lineStretches line ++ (a.emitLine line).1.linesStretches lines

/-- The text of an instruction that was built and not read. -/
def instructionText (f : Form) (ops : List Operand) : String :=
  if (Operand.texts ops).isEmpty then f.mnemonic else f.mnemonic ++ " " ++ Operand.texts ops

/-- What an instruction that was built puts. -/
def instructionStretches (a : Assembler) (m : String) (ops : List Operand) : List Stretch :=
  let stretch : Except Problem Stretch := do
    let f ← selectForm m ops .nowhere
    let e ← f.encode ops
    return { bytes := e.code.toList, source := a.kept (instructionText f ops) }
  stretch.toOption.toList

/-- What a call puts. -/
def stepStretches (a : Assembler) : Step → List Stretch
  | .emit source => a.linesStretches (splitLines source.toList)
  | .instruction m ops => a.instructionStretches m ops
  | .data bytes => [⟨bytes, none⟩]
  | .word value => [⟨bigEndian 2 value.toNat, none⟩]
  | .base _ | .external _ _ | .listing | .label _ => []

/-- What a session puts. -/
def stretches (a : Assembler) : List Step → List Stretch
  | [] => []
  | step :: steps => a.stepStretches step ++ (a.perform step).1.stretches steps

/-! ## The notes after some stretches -/

/-- What a program has to do with the stretches so far. -/
structure IsNoted (a : Assembler) (log : List Stretch) : Prop where
  /-- The stretches are the code. -/
  code : a.code = log.flatMap Stretch.bytes
  /-- The texts are where their stretches begin. -/
  notes : a.notes = notesFrom 0 log
  /-- There are bytes where there is a text, and the text is not empty. -/
  filled : ∀ s ∈ log, ∀ text, s.source = some text → s.bytes ≠ [] ∧ text ≠ ""

theorem notesFrom_append (start : Nat) (front behind : List Stretch) :
    notesFrom start (front ++ behind) =
      notesFrom start front ++ notesFrom (start + (front.flatMap Stretch.bytes).length) behind := by
  induction front generalizing start with
  | nil => rfl
  | cons s front ih =>
    rw [List.cons_append, notesFrom, notesFrom, ih, List.append_assoc, List.flatMap_cons,
      List.length_append, Nat.add_assoc]

variable {a b : Assembler} {log : List Stretch}

theorem isNoted_nil : IsNoted {} [] where
  code := rfl
  notes := rfl
  filled := List.forall_mem_nil _

/-- What changes neither the code nor the notes puts nothing. -/
theorem IsNoted.of_frame (h : IsNoted a log) (hcode : b.code = a.code)
    (hnotes : b.notes = a.notes) : IsNoted b (log ++ []) := by
  rw [List.append_nil]
  exact ⟨hcode.trans h.code, hnotes.trans h.notes, h.filled⟩

/-- One more stretch. -/
theorem IsNoted.concat (h : IsNoted a log) {s : Stretch} (hcode : b.code = a.code ++ s.bytes)
    (hnotes : b.notes = a.notes ++ (s.source.map (Note.mk a.code.length)).toList)
    (hfilled : ∀ text, s.source = some text → s.bytes ≠ [] ∧ text ≠ "") :
    IsNoted b (log ++ [s]) where
  code := by
    rw [hcode, h.code, List.flatMap_append, List.flatMap_singleton]
  notes := by
    rw [hnotes, h.notes, notesFrom_append, ← h.code, Nat.zero_add, notesFrom, notesFrom,
      List.append_nil]
  filled := by
    rw [List.forall_mem_append, List.forall_mem_singleton]
    exact ⟨h.filled, hfilled⟩

/-- A piece behind the program, with its text. -/
theorem IsNoted.extend (h : IsNoted a log) {p : Piece} (hp : p.code ≠ []) {text : String}
    (htext : text ≠ "") :
    IsNoted ((a.extend p).note a.code.length text) (log ++ [⟨p.code, a.kept text⟩]) := by
  have hnote : ((a.extend p).note a.code.length text).code = a.code ++ p.code ∧
      ((a.extend p).note a.code.length text).notes =
        a.notes ++ ((a.kept text).map (Note.mk a.code.length)).toList := by
    unfold note kept
    rw [show (a.extend p).listing = a.listing from rfl]
    cases a.listing with
    | true => exact ⟨rfl, rfl⟩
    | false => exact ⟨rfl, (List.append_nil _).symm⟩
  refine h.concat hnote.1 hnote.2 fun kept hkept => ⟨hp, ?_⟩
  unfold Assembler.kept at hkept
  split at hkept
  · rwa [← Option.some.inj hkept]
  · cases hkept

/-- The notes are in order, and there are bytes behind each. -/
theorem notesFrom_spec {log : List Stretch}
    (h : ∀ s ∈ log, ∀ text, s.source = some text → s.bytes ≠ [] ∧ text ≠ "") :
    ∀ start, (notesFrom start log).Pairwise (fun n m => n.offset < m.offset) ∧
      ∀ n ∈ notesFrom start log, start ≤ n.offset ∧
        n.offset < start + (log.flatMap Stretch.bytes).length ∧ n.text ≠ "" := by
  induction log with
  | nil => exact fun _ => ⟨.nil, List.forall_mem_nil _⟩
  | cons s log ih =>
    intro start
    rw [List.forall_mem_cons] at h
    obtain ⟨hsorted, hinside⟩ := ih h.2 (start + s.bytes.length)
    rw [notesFrom, List.flatMap_cons, List.length_append, ← Nat.add_assoc]
    cases hsource : s.source with
    | none =>
      refine ⟨hsorted, fun n hn => ?_⟩
      obtain ⟨hstart, hrest⟩ := hinside n hn
      exact ⟨Nat.le_trans (Nat.le_add_right _ _) hstart, hrest⟩
    | some text =>
      obtain ⟨hbytes, htext⟩ := h.1 text hsource
      have hpos := List.length_pos_iff.mpr hbytes
      show (⟨start, text⟩ :: notesFrom (start + s.bytes.length) log).Pairwise _ ∧
        ∀ n ∈ ⟨start, text⟩ :: notesFrom (start + s.bytes.length) log, _
      rw [List.pairwise_cons, List.forall_mem_cons]
      refine ⟨⟨fun n hn => ?_, hsorted⟩, ⟨Nat.le_refl start, ?_, htext⟩, fun n hn => ?_⟩
      · exact Nat.lt_of_lt_of_le (Nat.lt_add_of_pos_right hpos) (hinside n hn).1
      · show start < _
        omega
      · obtain ⟨hstart, hrest⟩ := hinside n hn
        exact ⟨Nat.le_trans (Nat.le_add_right _ _) hstart, hrest⟩

/-! ## Lines -/

/-- The text of a command is not empty. -/
theorem text_ne_empty {text : List Char} {number offset : Nat} {l : Line} {c : Command}
    (h : Line.parse text number offset = .ok l) (hc : l.command = some c) : c.text ≠ "" := by
  obtain ⟨names, body, hfront⟩ := Line.exists_isFront (Line.code text)
  obtain ⟨labels, lead, -, -, -, hparse⟩ := Line.parse_of_isFront hfront number offset
  rw [hparse] at h
  split at h
  · obtain rfl := Except.ok.inj h
    cases hc
  · next hbody =>
    obtain ⟨ops, -, rfl⟩ := map_eq_ok.mp h
    obtain rfl := Option.some.inj hc
    -- there is no white space in front of the command
    obtain ⟨d, ds, rfl⟩ := List.exists_cons_of_ne_nil hbody
    intro hempty
    have htext := congrArg String.toList hempty
    rw [String.toList_ofList, trim_cons (hfront.head d rfl)] at htext
    cases htext

/-- Labels put nothing. -/
theorem frame_of_defineLabels {ps : List Part} {problem? : Option Problem}
    (h : a.defineLabels ps = (b, problem?)) :
    b.code = a.code ∧ b.notes = a.notes ∧ b.listing = a.listing := by
  obtain ⟨labels, labelIndex, hframe⟩ := defineLabels_frame ps a
  rw [h] at hframe
  rw [show b = { a with labels, labelIndex } from hframe]
  exact ⟨rfl, rfl, rfl⟩

/-- What a line puts is behind the program, with its text. -/
theorem IsNoted.emitLine (h : IsNoted a log) (line : List Char) :
    IsNoted (a.emitLine line).1 (log ++ a.lineStretches line) := by
  have hstatement :
      IsNoted (a.statement (withoutBreak line) (a.lines + 1) a.sourceBytes).1
        (log ++ a.lineStretches line) := by
    have houtcome := a.isOutcome_statement (withoutBreak line) (a.lines + 1) a.sourceBytes
    generalize (a.statement (withoutBreak line) (a.lines + 1) a.sourceBytes).1 = next
      at houtcome ⊢
    generalize (a.statement (withoutBreak line) (a.lines + 1) a.sourceBytes).2 = problem?
      at houtcome
    unfold lineStretches
    cases houtcome with
    | unread hparse =>
      simp only [hparse]
      exact h.of_frame rfl rfl
    | taken hparse hdefine =>
      obtain ⟨hcode, hnotes, -⟩ := frame_of_defineLabels hdefine
      simp only [hparse, hdefine]
      exact h.of_frame hcode hnotes
    | bare hparse hdefine hc =>
      obtain ⟨hcode, hnotes, -⟩ := frame_of_defineLabels hdefine
      simp only [hparse, hdefine, hc]
      exact h.of_frame hcode hnotes
    | refused hparse hdefine hc hpiece =>
      obtain ⟨hcode, hnotes, -⟩ := frame_of_defineLabels hdefine
      simp only [hparse, hdefine, hc, hpiece]
      exact h.of_frame hcode hnotes
    | @accepted l mid c p hparse hdefine hc hpiece =>
      obtain ⟨hcode, hnotes, hlisting⟩ := frame_of_defineLabels hdefine
      have hmid : IsNoted mid log := List.append_nil log ▸ h.of_frame hcode hnotes
      have hkept : a.kept c.text = mid.kept c.text := by rw [kept, kept, hlisting]
      simp only [hparse, hdefine, hc, hpiece, hkept]
      exact hmid.extend (Piece.ofCommand_spec hpiece).1 (text_ne_empty hparse hc)
  exact ⟨hstatement.code, hstatement.notes, hstatement.filled⟩

theorem IsNoted.emitLines {lines : List (List Char)} :
    ∀ {a : Assembler} {log : List Stretch}, IsNoted a log →
      IsNoted (a.emitLines lines).1 (log ++ a.linesStretches lines) := by
  induction lines with
  | nil => exact fun h => h.of_frame rfl rfl
  | cons line lines ih =>
    intro a log h
    rw [linesStretches, ← List.append_assoc]
    exact ih (h.emitLine line)

/-! ## Calls -/

/-- The text of an instruction is not empty. -/
theorem instructionText_ne_empty {m : String} {ops : List Operand} {f : Form}
    (hf : selectForm m ops .nowhere = .ok f) : instructionText f ops ≠ "" := by
  obtain ⟨family, hfamily, hmem⟩ :=
    Form.mem_all_iff.mp (mem_of_resolve (selectForm_eq_ok_iff.mp hf))
  have hname : f.mnemonic ≠ "" := by
    intro hempty
    rw [Form.Family.mnemonic_eq hmem] at hempty
    exact (Form.Family.isWord_mnemonic family hfamily).1 (congrArg String.toList hempty)
  unfold instructionText
  split
  · exact hname
  · rw [String.append_assoc]
    exact fun h => hname (String.append_eq_empty_iff.mp h).1

/-- An instruction that was built is behind the program, with its text. -/
theorem IsNoted.instruction (h : IsNoted a log) (m : String) (ops : List Operand) :
    IsNoted (a.instruction m ops).1 (log ++ a.instructionStretches m ops) := by
  rw [Assembler.instruction, instructionStretches]
  cases hf : selectForm m ops .nowhere with
  | error problem => exact h.of_frame rfl rfl
  | ok f =>
    rw [withResult_ok, ok_bind, encodeForm]
    cases he : f.encode ops with
    | error problem => exact h.of_frame rfl rfl
    | ok e => exact h.extend (Piece.ofEncoding_spec he).1 (instructionText_ne_empty hf)

theorem IsNoted.perform (h : IsNoted a log) (step : Step) :
    IsNoted (a.perform step).1 (log ++ a.stepStretches step) := by
  cases step with
  | emit source => exact h.emitLines
  | label name =>
    show IsNoted (a.defineLabel name).1 (log ++ [])
    unfold defineLabel
    split <;> exact h.of_frame rfl rfl
  | instruction m ops =>
    rw [perform_instruction, outcome_fst]
    exact h.instruction m ops
  | data bytes => exact h.concat rfl (List.append_nil _).symm fun text htext => by cases htext
  | word value => exact h.concat rfl (List.append_nil _).symm fun text htext => by cases htext
  | base address => exact h.of_frame rfl rfl
  | external name value => exact h.of_frame rfl rfl
  | listing => exact h.of_frame rfl rfl

/-- **The notes of a program are where the bytes of their statements begin.** -/
theorem isNoted_run {steps : List Step} :
    ∀ {a : Assembler} {log : List Stretch}, IsNoted a log →
      IsNoted (a.run steps) (log ++ a.stretches steps) := by
  induction steps with
  | nil => exact fun h => h.of_frame rfl rfl
  | cons step steps ih =>
    intro a log h
    rw [stretches, ← List.append_assoc]
    exact ih (h.perform step)

end Assembler

end Stm8
