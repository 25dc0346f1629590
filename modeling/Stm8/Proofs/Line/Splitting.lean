import Stm8.Proofs.Line.Cutting
import Stm8.Proofs.Line.Labels

/-!
# Nothing of a line is lost

A line is taken apart from the left: labels, the name of the command, the operands. Each part
is remembered with its place, which is found by counting bytes on. To see that the count is
right everywhere, the line is put together again from its parts and from the characters
between them (`Fills`), labels first (`IsFront`):

> `splitting`: every part stands where its place says; the parts are in order and in front of
> the comment; and all characters in none of them are white space, the colons of labels and
> the commas between operands. A line is rejected exactly if what stands behind the name of
> its command is no list of operands (`IsMalformed`).
-/

namespace Stm8

open Stm8.Text

/-! ## Places -/

/-- The bytes of the line in front of the part. -/
def Part.start (p : Part) : Nat :=
  p.span.column - 1

/-- The bytes of the line up to the end of the part. -/
def Part.stop (p : Part) : Nat :=
  p.start + p.span.length

/-- Whether the part stands in the line where its place says. -/
structure Part.IsPlaced (line : List Char) (number offset : Nat) (p : Part) : Prop where
  line_eq : p.span.line = number
  column_pos : 1 ≤ p.span.column
  offset_eq : p.span.offset = offset + p.span.column - 1
  length_eq : p.span.length = width p.text.toList
  isPartOf : Slice.IsPartOf ⟨p.start, p.text.toList⟩ line

namespace Line

/-- The parts of a line, in order. -/
def parts (l : Line) : List Part :=
  l.labels ++
    match l.command with
    | none => []
    | some c => c.name :: c.operands

/-- The line without its comment. -/
def code (line : List Char) : List Char :=
  line.takeWhile (· != ';')

/-- Whether a character can be in none of the parts: as white space, as the colon right behind
a label, or as the comma between two operands, outside of the brackets behind the name. -/
def IsBetween (l : Line) (before : List Char) (c : Char) : Prop :=
  isBlank c = true ∨
    (c = ':' ∧ ∃ p ∈ l.labels, p.stop = width before) ∨
    (c = ',' ∧ ∃ command, l.command = some command ∧
      (∃ p q, [p, q] <:+: command.operands ∧ p.stop ≤ width before ∧ width before < q.start) ∧
      ∃ front inner, before = front ++ inner ∧ width front = command.name.stop ∧
        bracketDepth inner = 0)

/-- Whether `body` is what follows the labels in the text. -/
inductive IsFront : List (List Char) → List Char → List Char → Prop where
  | body {front body : List Char} :
      (∀ c ∈ front, isBlank c = true) → (∀ c ∈ body.head?, isBlank c = false) →
      (∀ name rest, isSymbolName name = true → body ≠ name ++ ':' :: rest) →
      IsFront [] (front ++ body) body
  | label {front name text body : List Char} {names : List (List Char)} :
      (∀ c ∈ front, isBlank c = true) → isSymbolName name = true → IsFront names text body →
      IsFront (name :: names) (front ++ name ++ ':' :: text) body

/-- Whether the command consists of the first word and the operands behind it. -/
structure IsCommand (body : List Char) (c : Command) : Prop where
  nonempty : body ≠ []
  name : c.name.text.toList = body.takeWhile inWord
  operands : c.operands = [] ∧ (∀ d ∈ body.dropWhile inWord, isBlank d = true) ∨
    ∃ pieces, AreOperands (body.dropWhile inWord) pieces ∧
      c.operands.map (fun p => p.text.toList) = pieces.map trim

/-- Whether the parts of the line are what the line consists of. -/
structure IsSplit (line : List Char) (number offset : Nat) (l : Line) : Prop where
  /-- Every part stands where its place says. -/
  placed : ∀ p ∈ l.parts, p.IsPlaced line number offset
  /-- One part comes behind the other. -/
  ordered : l.parts.Pairwise fun p q => p.stop ≤ q.start
  /-- They are in front of the comment. -/
  inCode : ∀ p ∈ l.parts, p.stop ≤ width (code line)
  /-- What is in none of them is there to keep them apart. -/
  between : ∀ before c behind, code line = before ++ c :: behind →
    (∀ p ∈ l.parts, ¬(p.start ≤ width before ∧ width before < p.stop)) → l.IsBetween before c
  /-- An operand is neither empty nor padded, and has no comma that would be a cut. -/
  operands : ∀ c, l.command = some c → ∀ p ∈ c.operands,
    p.text.toList ≠ [] ∧ trim p.text.toList = p.text.toList ∧ ¬HasComma p.text.toList
  /-- There are three operands at most. -/
  few : ∀ c, l.command = some c → c.operands.length ≤ 3
  /-- The labels are followed by the command. -/
  whole : ∃ body, IsFront (l.labels.map fun p => p.text.toList) (code line) body ∧
    match l.command with
    | none => body = []
    | some c => IsCommand body c

/-! ## Putting a text together -/

/-- Where a text is when the white space around it is trimmed. -/
theorem exists_slice_trim (cs : List Char) :
    ∃ lead behind, (∀ c ∈ lead, isBlank c = true) ∧ (∀ c ∈ behind, isBlank c = true) ∧
      cs = lead ++ trim cs ++ behind ∧
      ∀ start, Slice.trim ⟨start, cs⟩ = ⟨start + width lead, trim cs⟩ := by
  obtain ⟨behind, hbehind, hstart⟩ := exists_eq_trimEnd_append (trimStart cs)
  refine ⟨cs.takeWhile isBlank, behind, List.all_eq_true.mp List.all_takeWhile, hbehind, ?_,
    fun _ => rfl⟩
  rw [List.append_assoc]
  exact (List.takeWhile_append_dropWhile (p := isBlank)).symm.trans (congrArg _ hstart)

/-- What is left of a slice lies in it. -/
theorem trim_bounds (start : Nat) (cs : List Char) :
    start ≤ (Slice.trim ⟨start, cs⟩).start ∧
      (Slice.trim ⟨start, cs⟩).start + width (Slice.trim ⟨start, cs⟩).text ≤ start + width cs := by
  obtain ⟨lead, behind, -, -, hcs, hslice⟩ := exists_slice_trim cs
  have hwidth := congrArg width hcs
  rw [width_append, width_append] at hwidth
  rw [hslice]
  dsimp only
  omega

/-- Whether the text behind `front` consists of the slices, in their places, and of characters
between them that are as they have to be. -/
inductive Fills (P : List Char → Char → Prop) : List Char → List Char → List Slice → Prop where
  | nil (front : List Char) : Fills P front [] []
  | gap {front text : List Char} {c : Char} {slices : List Slice} :
      P front c → Fills P (front ++ [c]) text slices → Fills P front (c :: text) slices
  | part {front text : List Char} {slices : List Slice} (cs : List Char) :
      Fills P (front ++ cs) text slices →
      Fills P front (cs ++ text) (⟨width front, cs⟩ :: slices)

namespace Fills

variable {P Q : List Char → Char → Prop} {front text : List Char} {slices : List Slice}

theorem mono (h : Fills P front text slices) (hPQ : ∀ before c, P before c → Q before c) :
    Fills Q front text slices := by
  induction h with
  | nil front => exact .nil front
  | gap hc _ ih => exact .gap (hPQ _ _ hc) ih
  | part cs _ ih => exact .part cs ih

theorem append {text' : List Char} {slices' : List Slice} (h : Fills P front text slices)
    (h' : Fills P (front ++ text) text' slices') :
    Fills P front (text ++ text') (slices ++ slices') := by
  induction h with
  | nil front => rwa [List.append_nil] at h'
  | gap hc _ ih =>
    rw [List.append_cons] at h'
    exact .gap hc (ih h')
  | part cs _ ih =>
    rw [← List.append_assoc] at h'
    rw [List.append_assoc]
    exact .part cs (ih h')

theorem blank (hP : ∀ before c, isBlank c = true → P before c) (front : List Char)
    {cs : List Char} (h : ∀ c ∈ cs, isBlank c = true) : Fills P front cs [] := by
  induction cs generalizing front with
  | nil => exact .nil front
  | cons c cs ih =>
    rw [List.forall_mem_cons] at h
    exact .gap (hP front c h.1) (ih _ h.2)

/-- A text without the white space around it. -/
theorem trim (hP : ∀ before c, isBlank c = true → P before c) (front cs : List Char) :
    Fills P front cs [Slice.trim ⟨width front, cs⟩] := by
  obtain ⟨lead, behind, hlead, hbehind, hcs, hslice⟩ := exists_slice_trim cs
  have hall : Fills P front (lead ++ (Text.trim cs ++ behind))
      ([] ++ [⟨width (front ++ lead), Text.trim cs⟩]) :=
    (blank hP front hlead).append (.part (Text.trim cs) (blank hP _ hbehind))
  rw [← List.append_assoc, ← hcs, width_append] at hall
  rw [hslice]
  exact hall

/-- The slices are parts of the text. -/
theorem isPartOf (h : Fills P front text slices) :
    ∀ s ∈ slices, ∃ pre post, text = pre ++ s.text ++ post ∧ s.start = width front + width pre := by
  induction h with
  | nil front => exact List.forall_mem_nil _
  | @gap front text c slices hc _ ih =>
    intro s hs
    obtain ⟨pre, post, rfl, hstart⟩ := ih s hs
    refine ⟨c :: pre, post, rfl, ?_⟩
    rw [hstart, width_append, width_cons, width_cons, width_nil]
    omega
  | @part front text slices cs _ ih =>
    rw [List.forall_mem_cons]
    refine ⟨⟨[], text, rfl, rfl⟩, fun s hs => ?_⟩
    obtain ⟨pre, post, rfl, hstart⟩ := ih s hs
    refine ⟨cs ++ pre, post, by simp only [List.append_assoc], ?_⟩
    rw [hstart, width_append, width_append]
    omega

theorem ordered (h : Fills P front text slices) :
    slices.Pairwise fun s t => s.start + width s.text ≤ t.start := by
  induction h with
  | nil front => exact .nil
  | gap _ _ ih => exact ih
  | part cs hrest ih =>
    refine .cons (fun t ht => ?_) ih
    obtain ⟨pre, post, -, hstart⟩ := hrest.isPartOf t ht
    rw [hstart, width_append]
    exact Nat.le_add_right _ _

/-- What is in no slice is as it has to be. -/
theorem between (h : Fills P front text slices) :
    ∀ mid c behind, text = mid ++ c :: behind →
      (∀ s ∈ slices, ¬(s.start ≤ width (front ++ mid) ∧
        width (front ++ mid) < s.start + width s.text)) →
      P (front ++ mid) c := by
  induction h with
  | nil front =>
    intro mid c behind htext
    cases mid <;> cases htext
  | @gap front text c slices hc _ ih =>
    intro mid d behind htext hout
    cases mid with
    | nil =>
      obtain ⟨rfl, -⟩ := List.cons.inj htext
      rwa [List.append_nil]
    | cons e mid =>
      obtain ⟨rfl, htail⟩ := List.cons.inj htext
      rw [List.append_cons] at hout ⊢
      exact ih mid d behind htail hout
  | @part front text slices cs _ ih =>
    intro mid c behind htext hout
    rw [List.forall_mem_cons] at hout
    rcases List.append_eq_append_iff.mp htext with ⟨rest, rfl, hrest⟩ | ⟨rest, rfl, hrest⟩
    · rw [← List.append_assoc] at hout ⊢
      exact ih rest c behind hrest hout.2
    · cases rest with
      | nil =>
        rw [List.append_nil] at ih hout
        have hall := ih [] c behind hrest.symm
        rw [List.append_nil] at hall
        exact hall hout.2
      | cons d rest =>
        -- the character is in the slice
        refine absurd ⟨?_, ?_⟩ hout.1
        · rw [width_append]
          exact Nat.le_add_right _ _
        · have hpos := Char.utf8Size_pos d
          show width (front ++ mid) < width front + width (mid ++ d :: rest)
          rw [width_append, width_append, width_cons]
          omega

end Fills

/-! ## Labels -/

/-- What can stand between labels. -/
def IsNearLabel (labels : List Slice) (before : List Char) (c : Char) : Prop :=
  isBlank c = true ∨ c = ':' ∧ ∃ s ∈ labels, s.start + width s.text = width before

/-- Text that begins with no label is left as it is. -/
theorem splitLabels_body {front body : List Char} (hfront : ∀ c ∈ front, isBlank c = true)
    (hhead : ∀ c ∈ body.head?, isBlank c = false)
    (hlabel : ∀ name rest, isSymbolName name = true → body ≠ name ++ ':' :: rest) (start : Nat) :
    splitLabels ⟨start, front ++ body⟩ = ([], ⟨start + width front, body⟩) := by
  have hsolid : body.head?.all (fun c => !isBlank c) = true := by
    cases hbody : body.head? with
    | none => rfl
    | some c => simpa using hhead c (by rw [hbody]; rfl)
  rw [splitLabels, trimStart_pad hfront hsolid]
  dsimp only
  split
  · next tail htail =>
    have hbody : body = body.takeWhile inWord ++ ':' :: tail :=
      List.takeWhile_append_dropWhile.symm.trans (congrArg _ htail)
    have hname : ¬isSymbolName (body.takeWhile inWord) = true := fun hname =>
      hlabel _ tail hname hbody
    exact if_neg hname
  · rfl

/-- The labels are cut off, and fill what is cut off. -/
theorem IsFront.splitLabels {names : List (List Char)} {text body : List Char}
    (h : IsFront names text body) (front : List Char) :
    ∃ labels lead, splitLabels ⟨width front, text⟩ = (labels, ⟨width (front ++ lead), body⟩) ∧
      labels.map Slice.text = names ∧ text = lead ++ body ∧
      Fills (IsNearLabel labels) front lead labels := by
  induction h generalizing front with
  | @body blank body hblank hhead hlabel =>
    refine ⟨[], blank, ?_, rfl, rfl, Fills.blank (fun _ _ => Or.inl) front hblank⟩
    rw [splitLabels_body hblank hhead hlabel, width_append]
  | @label blank name text body names hblank hname _ ih =>
    obtain ⟨labels, lead, hsplit, hnames, rfl, hfills⟩ := ih (front ++ blank ++ name ++ [':'])
    have hcolon : width [':'] = 1 := rfl
    refine ⟨⟨width (front ++ blank), name⟩ :: labels, blank ++ (name ++ ':' :: lead), ?_, ?_,
      ?_, ?_⟩
    · have hstart : width front + width blank + width name + 1 =
          width (front ++ blank ++ name ++ [':']) := by
        rw [width_append, width_append, width_append, hcolon]
      have hstop : front ++ blank ++ name ++ [':'] ++ lead =
          front ++ (blank ++ (name ++ ':' :: lead)) := by
        simp only [List.append_assoc, List.singleton_append]
      rw [splitLabels_name hblank (width front) hname, hstart, hsplit, hstop,
        width_append front blank]
    · rw [List.map_cons, hnames]
    · simp only [List.append_assoc, List.cons_append]
    · have hrest := hfills.mono (Q := IsNearLabel (⟨width (front ++ blank), name⟩ :: labels))
        fun before c hc => hc.imp_right fun ⟨hcolon, s, hs, hstop⟩ =>
          ⟨hcolon, s, List.mem_cons_of_mem _ hs, hstop⟩
      have hgap : IsNearLabel (⟨width (front ++ blank), name⟩ :: labels)
          (front ++ blank ++ name) ':' :=
        Or.inr ⟨rfl, _, List.mem_cons_self, (width_append _ _).symm⟩
      exact (Fills.blank (fun _ _ => Or.inl) front hblank).append (.part name (.gap hgap hrest))

/-- There is no white space in front of what follows the labels. -/
theorem IsFront.head {names : List (List Char)} {text body : List Char}
    (h : IsFront names text body) : ∀ c ∈ body.head?, isBlank c = false := by
  induction h with
  | body _ hhead _ => exact hhead
  | label _ _ _ ih => exact ih

/-- Every text has labels in front, if only none. -/
theorem exists_isFront (text : List Char) : ∃ names body, IsFront names text body := by
  induction hlength : text.length using Nat.strongRecOn generalizing text with
  | ind n ih =>
    rcases forall_isBlank_or_exists text with hall | ⟨front, c, cs, hfront, hc, rfl⟩
    · refine ⟨[], [], List.append_nil text ▸ .body hall (by simp) fun name rest hname hbody => ?_⟩
      cases name <;> cases hbody
    · by_cases hlabel : ∃ name rest, isSymbolName name = true ∧ c :: cs = name ++ ':' :: rest
      · obtain ⟨name, rest, hname, htext⟩ := hlabel
        rw [htext, List.length_append, List.length_append, List.length_cons] at hlength
        obtain ⟨names, body, hrest⟩ := ih rest.length (by omega) rest rfl
        refine ⟨name :: names, body, ?_⟩
        rw [htext, ← List.append_assoc]
        exact .label hfront hname hrest
      · refine ⟨[], c :: cs, .body hfront ?_ fun name rest hname htext =>
          hlabel ⟨name, rest, hname, htext⟩⟩
        simpa using hc

/-! ## Operands -/

/-- What can stand between operands: besides white space, the commas outside of the brackets in
the text behind `base`. -/
def IsNearOperand (base : List Char) (operands : List Slice) (before : List Char) (c : Char) :
    Prop :=
  isBlank c = true ∨ c = ',' ∧
    (∃ s t, [s, t] <:+: operands ∧ s.start + width s.text ≤ width before ∧
      width before < t.start) ∧
    ∃ inner, before = base ++ inner ∧ bracketDepth inner = 0

/-- The pieces fill the text, without the white space around them. -/
theorem fills_pieces (base : List Char) {pieces : List (List Char)}
    (h : ∀ piece ∈ pieces, IsBalanced piece) {inner : List Char} (hinner : bracketDepth inner = 0) :
    Fills (IsNearOperand base ((slicesAt (width (base ++ inner)) pieces).map Slice.trim))
      (base ++ inner) ([','].intercalate pieces)
      ((slicesAt (width (base ++ inner)) pieces).map Slice.trim) := by
  induction pieces generalizing inner with
  | nil => exact .nil _
  | cons piece pieces ih =>
    rw [List.forall_mem_cons] at h
    cases pieces with
    | nil =>
      rw [List.intercalate_singleton]
      exact Fills.trim (fun _ _ => Or.inl) (base ++ inner) piece
    | cons second pieces =>
      have hpiece : bracketDepth (inner ++ piece) = 0 := by
        rw [bracketDepth_append, hinner, h.1.closed, Int.add_zero]
      have hcomma : bracketDepth (inner ++ piece ++ [',']) = 0 := by
        rw [bracketDepth_append, hpiece]
        rfl
      have hrest := ih h.2 hcomma
      rw [← List.append_assoc, ← List.append_assoc] at hrest
      let start := width (base ++ inner ++ piece ++ [','])
      have hstart : width (base ++ inner) + width piece + 1 = start := by
        rw [← width_append]
        exact (width_append _ [',']).symm
      have hslices : (slicesAt (width (base ++ inner)) (piece :: second :: pieces)).map Slice.trim =
          Slice.trim ⟨width (base ++ inner), piece⟩ ::
            (slicesAt start (second :: pieces)).map Slice.trim := by
        rw [slicesAt, List.map_cons, hstart]
      have htext : [','].intercalate (piece :: second :: pieces) =
          piece ++ ',' :: [','].intercalate (second :: pieces) := by
        rw [List.intercalate_cons_cons, List.append_assoc]
        rfl
      rw [hslices, htext]
      refine (Fills.trim (fun _ _ => Or.inl) (base ++ inner) piece).append
        (.gap (Or.inr ⟨rfl, ?_, ?_⟩) (hrest.mono fun before c hc => hc.imp_right ?_))
      · -- the comma is between the first two operands
        obtain ⟨-, hstop⟩ := trim_bounds (width (base ++ inner)) piece
        obtain ⟨hbegin, -⟩ := trim_bounds start second
        have hwidth := width_append (base ++ inner) piece
        exact ⟨_, _, List.IsPrefix.isInfix ⟨_, rfl⟩, by omega, by omega⟩
      · exact ⟨inner ++ piece, List.append_assoc _ _ _, hpiece⟩
      · rintro ⟨hc, ⟨s, t, hst, hbefore, hafter⟩, hdepth⟩
        exact ⟨hc, ⟨s, t, List.infix_cons hst, hbefore, hafter⟩, hdepth⟩

/-- The operands of a command fill what stands behind its name. -/
theorem exists_fills_operands {number offset : Nat} {front args : List Char} {ops : List Part}
    (h : operands number offset ⟨width front, args⟩ = .ok ops) :
    ∃ slices : List Slice, ops = slices.map (part number offset) ∧
      Fills (IsNearOperand front slices) front args slices := by
  rcases operands_eq_ok_iff.mp h with ⟨hblank, rfl⟩ | ⟨-, pieces, hpieces, rfl⟩
  · exact ⟨[], rfl, Fills.blank (fun _ _ => Or.inl) _ (trim_eq_nil_iff.mp hblank)⟩
  · have hfill := @fills_pieces front _ hpieces.cut.balanced [] rfl
    rw [List.append_nil, ← hpieces.cut.joined] at hfill
    exact ⟨_, by rw [List.map_map]; rfl, hfill⟩

/-! ## Whole lines -/

section

variable {text : List Char} {number offset : Nat}

@[simp] theorem stop_part (s : Slice) :
    (part number offset s).stop = s.start + width s.text := rfl

@[simp] theorem toList_part (s : Slice) : (part number offset s).text.toList = s.text :=
  String.toList_ofList

/-- Labels first, then a command with its operands. -/
theorem parse_of_isFront {names : List (List Char)} {body : List Char}
    (h : IsFront names (code text) body) (number offset : Nat) :
    ∃ labels lead, labels.map Slice.text = names ∧ code text = lead ++ body ∧
      Fills (IsNearLabel labels) [] lead labels ∧
      parse text number offset =
        if body = [] then .ok ⟨labels.map (part number offset), none⟩
        else
          (operands number offset
            ⟨width (lead ++ body.takeWhile inWord), body.dropWhile inWord⟩).map fun ops =>
              ⟨labels.map (part number offset),
                some ⟨part number offset ⟨width lead, body.takeWhile inWord⟩, ops,
                  String.ofList (trim body)⟩⟩ := by
  obtain ⟨labels, lead, hsplit, hnames, hcode, hfills⟩ := h.splitLabels []
  refine ⟨labels, lead, hnames, hcode, hfills, ?_⟩
  rw [width_nil, List.nil_append] at hsplit
  unfold parse
  rw [show text.takeWhile (· != ';') = code text from rfl, hsplit]
  dsimp only [Slice.takeWhile, Slice.dropWhile]
  rw [← width_append]
  by_cases hbody : body = []
  · rw [if_pos hbody, if_pos (List.isEmpty_iff.mpr hbody)]
    rfl
  · rw [if_neg hbody, if_neg fun hempty => hbody (List.isEmpty_iff.mp hempty)]
    cases operands number offset
      ⟨width (lead ++ body.takeWhile inWord), body.dropWhile inWord⟩ <;> rfl

/-- A comma in an operand is one in the text between the commas. -/
theorem HasComma.of_trim {piece : List Char} (h : HasComma (trim piece)) : HasComma piece := by
  obtain ⟨front, behind, htrim, hdepth⟩ := h
  obtain ⟨lead, rest, hlead, -, hpiece, -⟩ := exists_slice_trim piece
  have hblank : bracketDepth lead = 0 :=
    (depthAfter?_zero_iff.mp (depthAfter?_blank hlead 0)).1.closed
  refine ⟨lead ++ front, behind ++ rest, ?_, ?_⟩
  · conv => lhs; rw [hpiece, htrim]
    simp only [List.append_assoc, List.cons_append]
  · rw [bracketDepth_append, hblank, hdepth, Int.add_zero]

/-- The operands that are read are the pieces, trimmed. -/
theorem map_toList_operands (start : Nat) (pieces : List (List Char)) :
    ((slicesAt start pieces).map fun s => part number offset s.trim).map
      (fun p => p.text.toList) = pieces.map trim := by
  conv => rhs; rw [← map_text_slicesAt start pieces]
  rw [List.map_map, List.map_map]
  exact List.map_congr_left fun s _ => toList_part s.trim

/-- The labels of a line are followed by its command. -/
theorem exists_isCommand {l : Line} (h : parse text number offset = .ok l) :
    ∃ body, IsFront (l.labels.map fun p => p.text.toList) (code text) body ∧
      match l.command with
      | none => body = []
      | some c => IsCommand body c := by
  obtain ⟨names, body, hfront⟩ := exists_isFront (code text)
  obtain ⟨labels, lead, hnames, -, -, hparse⟩ := parse_of_isFront hfront number offset
  have htexts : (labels.map (part number offset)).map (fun p => p.text.toList) = names := by
    rw [List.map_map, ← hnames]
    exact List.map_congr_left fun s _ => toList_part s
  rw [hparse] at h
  refine ⟨body, ?_⟩
  by_cases hbody : body = []
  · rw [if_pos hbody] at h
    obtain rfl := Except.ok.inj h
    rw [htexts]
    exact ⟨hfront, hbody⟩
  · rw [if_neg hbody] at h
    obtain ⟨ops, hops, rfl⟩ := map_eq_ok.mp h
    rw [htexts]
    refine ⟨hfront, hbody, String.toList_ofList, ?_⟩
    rcases operands_eq_ok_iff.mp hops with ⟨hblank, rfl⟩ | ⟨-, pieces, hpieces, rfl⟩
    · exact Or.inl ⟨rfl, trim_eq_nil_iff.mp hblank⟩
    · exact Or.inr ⟨pieces, hpieces, map_toList_operands _ pieces⟩

/-- The parts of a line and what is between them fill the line. -/
theorem exists_fills {l : Line} (h : parse text number offset = .ok l) :
    ∃ slices, l.parts = slices.map (part number offset) ∧
      Fills l.IsBetween [] (code text) slices := by
  obtain ⟨names, body, hfront⟩ := exists_isFront (code text)
  obtain ⟨labels, lead, hnames, hcode, hfills, hparse⟩ := parse_of_isFront hfront number offset
  -- the colons stay behind the labels
  have hlead : l.labels = labels.map (part number offset) → Fills l.IsBetween [] lead labels := by
    intro hlabels
    refine hfills.mono fun before c hc => hc.imp_right fun ⟨hcolon, s, hs, hstop⟩ => Or.inl ?_
    refine ⟨hcolon, part number offset s, ?_, hstop⟩
    rw [hlabels]
    exact List.mem_map_of_mem hs
  rw [hparse] at h
  by_cases hbody : body = []
  · rw [if_pos hbody] at h
    obtain rfl := Except.ok.inj h
    refine ⟨labels, List.append_nil _, ?_⟩
    rw [hcode, hbody, List.append_nil]
    exact hlead rfl
  · rw [if_neg hbody] at h
    obtain ⟨ops, hops, rfl⟩ := map_eq_ok.mp h
    let word := body.takeWhile inWord
    let args := body.dropWhile inWord
    have hwhole : code text = lead ++ (word ++ args) :=
      hcode.trans (congrArg _ List.takeWhile_append_dropWhile.symm)
    obtain ⟨slices, hslices, hargs⟩ := exists_fills_operands hops
    refine ⟨labels ++ ⟨width lead, word⟩ :: slices, ?_, ?_⟩
    · rw [List.map_append, List.map_cons, ← hslices]
      rfl
    · rw [hwhole]
      refine (hlead rfl).append (.part word (hargs.mono fun before c hc => hc.imp_right ?_))
      rintro ⟨hcomma, ⟨s, t, hst, hbefore, hafter⟩, inner, hinner, hdepth⟩
      refine Or.inr ⟨hcomma, _, rfl, ⟨part number offset s, part number offset t, ?_, hbefore,
        hafter⟩, lead ++ word, inner, hinner, width_append lead word, hdepth⟩
      rw [hslices]
      exact hst.map _

end

/-- An operand is a piece without the white space around it. -/
theorem IsCommand.forall_operands {body : List Char} {c : Command} (h : IsCommand body c) :
    c.operands.length ≤ 3 ∧ ∀ p ∈ c.operands,
      p.text.toList ≠ [] ∧ trim p.text.toList = p.text.toList ∧ ¬HasComma p.text.toList := by
  rcases h.operands with ⟨hnone, -⟩ | ⟨pieces, hpieces, htexts⟩
  · rw [hnone]
    exact ⟨Nat.zero_le 3, List.forall_mem_nil _⟩
  · refine ⟨?_, fun p hp => ?_⟩
    · rw [← List.length_map (fun p : Part => p.text.toList), htexts, List.length_map]
      exact hpieces.few
    · have hmem : p.text.toList ∈ pieces.map trim := by
        rw [← htexts]
        exact List.mem_map_of_mem hp
      obtain ⟨piece, hpiece, htext⟩ := List.mem_map.mp hmem
      rw [← htext]
      exact ⟨hpieces.filled piece hpiece, trim_trim piece, fun hcomma =>
        hpieces.cut.noComma piece hpiece hcomma.of_trim⟩

theorem isSplit_of_parse {text : List Char} {number offset : Nat} {l : Line}
    (h : parse text number offset = .ok l) : IsSplit text number offset l := by
  obtain ⟨slices, hparts, hfills⟩ := exists_fills h
  obtain ⟨body, hfront, hcommand⟩ := exists_isCommand h
  have hall : ∀ c, l.command = some c → IsCommand body c := by
    intro c hc
    rwa [hc] at hcommand
  have hplaces : ∀ s ∈ slices, s.IsPartOf (code text) := by
    intro s hs
    obtain ⟨pre, post, hcode, hstart⟩ := hfills.isPartOf s hs
    exact ⟨pre, post, hcode, by rw [hstart, width_nil, Nat.zero_add]⟩
  refine ⟨?_, ?_, ?_, ?_, fun c hc => (hall c hc).forall_operands.2,
    fun c hc => (hall c hc).forall_operands.1, body, hfront, hcommand⟩
  · rw [hparts, List.forall_mem_map]
    intro s hs
    obtain ⟨pre, post, hcode, hstart⟩ := hplaces s hs
    refine ⟨rfl, Nat.le_add_left 1 s.start, rfl, by rw [toList_part]; rfl, pre,
      post ++ text.dropWhile (· != ';'), ?_, hstart⟩
    rw [toList_part, ← List.append_assoc, ← hcode]
    exact List.takeWhile_append_dropWhile.symm
  · rw [hparts, List.pairwise_map]
    exact hfills.ordered
  · rw [hparts, List.forall_mem_map]
    intro s hs
    obtain ⟨pre, post, hcode, hstart⟩ := hplaces s hs
    rw [stop_part, hcode, hstart, width_append, width_append]
    exact Nat.le_add_right _ _
  · intro before c behind hcode hout
    rw [hparts, List.forall_mem_map] at hout
    exact hfills.between before c behind hcode hout

/-- **Nothing of a line is lost.** A line that is parsed is split into its parts, each of them in
its place; and the lines that are not parsed are those whose command does not have a list of
operands behind its name. -/
theorem splitting (text : List Char) (number offset : Nat) :
    (∀ l, parse text number offset = .ok l → IsSplit text number offset l) ∧
    ((∃ problem, parse text number offset = .error problem) ↔
      ∃ names body, IsFront names (code text) body ∧ IsMalformed (body.dropWhile inWord)) := by
  refine ⟨fun l h => isSplit_of_parse h, ?_⟩
  have hiff : ∀ names body, IsFront names (code text) body →
      ((∃ problem, parse text number offset = .error problem) ↔
        IsMalformed (body.dropWhile inWord)) := by
    intro names body hfront
    obtain ⟨labels, lead, -, -, -, hparse⟩ := parse_of_isFront hfront number offset
    rw [hparse]
    by_cases hbody : body = []
    · rw [if_pos hbody, hbody]
      simp [IsMalformed]
    · rw [if_neg hbody, ← @operands_eq_error_iff number offset
        ⟨width (lead ++ body.takeWhile inWord), body.dropWhile inWord⟩]
      cases operands number offset
        ⟨width (lead ++ body.takeWhile inWord), body.dropWhile inWord⟩ <;> simp [Except.map]
  constructor
  · intro hproblem
    obtain ⟨names, body, hfront⟩ := exists_isFront (code text)
    exact ⟨names, body, hfront, (hiff names body hfront).mp hproblem⟩
  · rintro ⟨names, body, hfront, hmalformed⟩
    exact (hiff names body hfront).mpr hmalformed

/-- A line with a label, a comment, and a comma inside of brackets. -/
theorem splitting_pointer :
    ∃ l, parse "loop: ld A, ([ptr],X) ; fetch".toList 7 100 = .ok l ∧
      l.parts.map (fun p => (p.text, p.start, p.stop)) =
        [("loop", 0, 4), ("ld", 6, 8), ("A", 9, 10), ("([ptr],X)", 12, 21)] ∧
      IsSplit "loop: ld A, ([ptr],X) ; fetch".toList 7 100 l := by
  have hparts : (parse "loop: ld A, ([ptr],X) ; fetch".toList 7 100).toOption.map
      (fun l => l.parts.map fun p => (p.text, p.start, p.stop)) =
        some [("loop", 0, 4), ("ld", 6, 8), ("A", 9, 10), ("([ptr],X)", 12, 21)] := by
    decide +kernel
  cases hl : parse "loop: ld A, ([ptr],X) ; fetch".toList 7 100 with
  | error problem =>
    rw [hl] at hparts
    cases hparts
  | ok l =>
    rw [hl] at hparts
    exact ⟨l, rfl, Option.some.inj hparts, (splitting _ 7 100).1 l hl⟩

end Line

end Stm8
