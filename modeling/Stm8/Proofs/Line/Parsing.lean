import Stm8.Line
import Stm8.Proofs.Success
import Stm8.Proofs.Text.Padding

/-!
# Parsing what was put together

A line is put together from the name of a command, operands with commas between them, and
a comment. If the brackets of each operand pair up (`depthAfter?`) and it has no white
space, the line is taken apart into the same name and operands:

> `isStep`: what a character does to the counting of brackets and to the cutting.
> `splitAtCommas_intercalate`: operands are cut at the commas between them only.
> `parse_line`: a line without labels is parsed to its command.
> `parse_too_many`: unless it has more operands than any instruction.
-/

namespace Stm8

open Stm8.Text

namespace Line

/-! ## Brackets -/

/-- How many brackets are open behind the text if `depth` are open in front of it; none if
a bracket is closed that is not open, or if there is a comma outside of brackets. -/
def depthAfter? : Nat → List Char → Option Nat
  | depth, [] => some depth
  | depth, c :: cs =>
    if c == '(' || c == '[' then depthAfter? (depth + 1) cs
    else if c == ')' || c == ']' then
      if depth = 0 then none else depthAfter? (depth - 1) cs
    else if c == ',' && depth = 0 then none
    else depthAfter? depth cs

def isOpening (c : Char) : Bool :=
  c == '(' || c == '['

def isClosing (c : Char) : Bool :=
  c == ')' || c == ']'

/-- What a character adds to the depth. -/
def depthStep (c : Char) : Int :=
  if isOpening c then 1 else if isClosing c then -1 else 0

/-- What a character does to the counting and to the cutting. -/
inductive IsStep (depth : Nat) (c : Char) : Prop where
  /-- It belongs to the piece. -/
  | inner (next : Nat) (hnext : (next : Int) = depth + depthStep c)
      (hcomma : c = ',' → (depth : Int) ≠ 0)
      (hafter : ∀ cs, depthAfter? depth (c :: cs) = depthAfter? next cs)
      (hsplit : ∀ pos cs, splitAtCommas depth pos (c :: cs) =
        (splitAtCommas next (pos + c.utf8Size) cs).map fun cut => (c :: cut.1, cut.2))
  /-- It is a cut. -/
  | comma (hcomma : c = ',') (hdepth : depth = 0)
      (hafter : ∀ cs, depthAfter? depth (c :: cs) = none)
      (hsplit : ∀ pos cs, splitAtCommas depth pos (c :: cs) =
        (splitAtCommas 0 (pos + 1) cs).map fun cut => ([], ⟨pos + 1, cut.1⟩ :: cut.2))
  /-- It closes what is not open. -/
  | unopened (hunder : depth + depthStep c < 0)
      (hafter : ∀ cs, depthAfter? depth (c :: cs) = none)
      (hsplit : ∀ pos cs, splitAtCommas depth pos (c :: cs) = .error (.unopened pos))

theorem isStep (depth : Nat) (c : Char) : IsStep depth c := by
  by_cases hopening : isOpening c = true
  · have hstep : depthStep c = 1 := if_pos hopening
    refine .inner (depth + 1) (by omega) ?_ (fun cs => if_pos hopening)
      fun pos cs => if_pos hopening
    rintro rfl
    cases hopening
  by_cases hclosing : isClosing c = true
  · have hstep : depthStep c = -1 := (if_neg hopening).trans (if_pos hclosing)
    by_cases hzero : depth = 0
    · refine .unopened (by omega) (fun cs => ?_) fun pos cs => ?_
      · exact (if_neg hopening).trans ((if_pos hclosing).trans (if_pos hzero))
      · exact (if_neg hopening).trans ((if_pos hclosing).trans (if_pos hzero))
    · refine .inner (depth - 1) (by omega) ?_ (fun cs => ?_) fun pos cs => ?_
      · rintro rfl
        cases hclosing
      · exact (if_neg hopening).trans ((if_pos hclosing).trans (if_neg hzero))
      · exact (if_neg hopening).trans ((if_pos hclosing).trans (if_neg hzero))
  have hstep : depthStep c = 0 := (if_neg hopening).trans (if_neg hclosing)
  by_cases hcut : (c == ',' && decide (depth = 0)) = true
  · obtain ⟨rfl, rfl⟩ : c = ',' ∧ depth = 0 := by simpa using hcut
    exact .comma rfl rfl (fun cs => rfl) fun pos cs => rfl
  · refine .inner depth (by omega) (fun hcomma hzero => hcut ?_) (fun cs => ?_) fun pos cs => ?_
    · simpa [hcomma] using hzero
    · exact (if_neg hopening).trans ((if_neg hclosing).trans (if_neg hcut))
    · exact (if_neg hopening).trans ((if_neg hclosing).trans (if_neg hcut))

theorem depthAfter?_append (depth : Nat) (xs ys : List Char) :
    depthAfter? depth (xs ++ ys) = (depthAfter? depth xs).bind (depthAfter? · ys) := by
  induction xs generalizing depth with
  | nil => rfl
  | cons c cs ih =>
    rw [List.cons_append]
    cases isStep depth c with
    | inner next _ _ hafter _ => rw [hafter, hafter, ih]
    | comma _ _ hafter _ | unopened _ hafter _ =>
      rw [hafter, hafter]
      rfl

/-- Characters of a kind that no bracket or comma is of open and close nothing. -/
theorem depthAfter?_eq_self {p : Char → Bool}
    (hsigns : ∀ sign ∈ ['(', '[', ')', ']', ','], p sign = false) {cs : List Char}
    (h : ∀ c ∈ cs, p c = true) (depth : Nat) : depthAfter? depth cs = some depth := by
  induction cs with
  | nil => rfl
  | cons c cs ih =>
    rw [List.forall_mem_cons] at h
    have hne : ∀ sign ∈ ['(', '[', ')', ']', ','], (c == sign) = false := by
      intro sign hsign
      rw [beq_eq_false_iff_ne]
      rintro rfl
      have hout := hsigns c hsign
      rw [h.1] at hout
      cases hout
    rw [depthAfter?, hne '(' (by decide), hne '[' (by decide), hne ')' (by decide),
      hne ']' (by decide), hne ',' (by decide)]
    exact ih h.2

theorem depthAfter?_plain {cs : List Char} (h : ∀ c ∈ cs, isPlain c = true) (depth : Nat) :
    depthAfter? depth cs = some depth :=
  depthAfter?_eq_self (by decide) h depth

theorem depthAfter?_blank {cs : List Char} (h : ∀ c ∈ cs, isBlank c = true) (depth : Nat) :
    depthAfter? depth cs = some depth :=
  depthAfter?_eq_self (by decide) h depth

/-- Nothing is cut inside a text whose brackets pair up. -/
theorem splitAtCommas_append {cs : List Char} (rest : List Char) {depth after : Nat} (pos : Nat)
    (h : depthAfter? depth cs = some after) :
    splitAtCommas depth pos (cs ++ rest) =
      (splitAtCommas after (pos + width cs) rest).map
        fun (head, slices) => (cs ++ head, slices) := by
  induction cs generalizing depth pos with
  | nil =>
    injection h with h
    subst h
    rw [List.nil_append, width_nil, Nat.add_zero]
    cases splitAtCommas depth pos rest <;> rfl
  | cons c cs ih =>
    rw [List.cons_append]
    cases isStep depth c with
    | inner next _ _ hafter hsplit =>
      rw [hafter] at h
      rw [hsplit, ih _ h, map_map, width_cons, ← Nat.add_assoc]
      rfl
    | comma _ _ hafter _ | unopened _ hafter _ =>
      rw [hafter] at h
      cases h

/-- Such a text is a piece if nothing follows it. -/
theorem splitAtCommas_piece {cs : List Char} (h : depthAfter? 0 cs = some 0) (pos : Nat) :
    splitAtCommas 0 pos cs = .ok (cs, []) := by
  have hsplit := splitAtCommas_append [] pos h
  rw [List.append_nil] at hsplit
  rw [hsplit]
  show Except.ok (cs ++ [], _) = _
  rw [List.append_nil]

/-- It is cut off at a comma that follows it. -/
theorem splitAtCommas_comma {cs : List Char} (h : depthAfter? 0 cs = some 0) (pos : Nat)
    (rest : List Char) :
    splitAtCommas 0 pos (cs ++ ',' :: rest) =
      (splitAtCommas 0 (pos + width cs + 1) rest).map
        fun (head, slices) => (cs, ⟨pos + width cs + 1, head⟩ :: slices) := by
  -- outside of brackets the comma is a cut
  have hcut : splitAtCommas 0 (pos + width cs) (',' :: rest) =
      (splitAtCommas 0 (pos + width cs + 1) rest).map
        fun (head, slices) => ([], ⟨pos + width cs + 1, head⟩ :: slices) := rfl
  rw [splitAtCommas_append _ pos h, hcut]
  cases splitAtCommas 0 (pos + width cs + 1) rest with
  | error imbalance => rfl
  | ok cut =>
    show Except.ok (cs ++ [], _) = _
    rw [List.append_nil]
    rfl

/-! ## Operands -/

/-- Whether the text can be an operand between commas: something without white space,
comments and cuts. -/
structure IsOperand (cs : List Char) : Prop where
  nonempty : cs ≠ []
  solid : ∀ c ∈ cs, isBlank c = false ∧ c ≠ ';'
  whole : depthAfter? 0 cs = some 0

/-- Operands are cut at the commas between them only. White space around them does not
matter. -/
theorem splitAtCommas_intercalate {front behind : List Char}
    (hfront : ∀ c ∈ front, isBlank c = true) (hbehind : ∀ c ∈ behind, isBlank c = true)
    {first : List Char} {operands : List (List Char)}
    (h : ∀ o ∈ first :: operands, IsOperand o) (pos : Nat) :
    ∃ head slices,
      splitAtCommas 0 pos (front ++ [','].intercalate (first :: operands) ++ behind) =
        .ok (head, slices) ∧
      trim head :: slices.map (fun s => trim s.text) = first :: operands := by
  induction operands generalizing first front pos with
  | nil =>
    rw [List.forall_mem_cons] at h
    refine ⟨front ++ first ++ behind, [], ?_, ?_⟩
    · have hdepth : depthAfter? 0 (front ++ first ++ behind) = some 0 := by
        rw [depthAfter?_append, depthAfter?_append, depthAfter?_blank hfront]
        show ((depthAfter? 0 first).bind _) = _
        rw [h.1.whole]
        exact depthAfter?_blank hbehind 0
      rw [List.intercalate_singleton, splitAtCommas_piece hdepth]
    · rw [trim_pad hfront (fun c hc => (h.1.solid c hc).1) hbehind]
      rfl
  | cons second operands ih =>
    rw [List.forall_mem_cons] at h
    have hdepth : depthAfter? 0 (front ++ first) = some 0 := by
      rw [depthAfter?_append, depthAfter?_blank hfront]
      exact h.1.whole
    obtain ⟨head, slices, hrest, htexts⟩ := @ih [] (by simp) second h.2
      (pos + width (front ++ first) + 1)
    refine ⟨front ++ first, ⟨pos + width (front ++ first) + 1, head⟩ :: slices, ?_, ?_⟩
    · have htext : front ++ [','].intercalate (first :: second :: operands) ++ behind =
          front ++ first ++ ',' :: ([] ++ [','].intercalate (second :: operands) ++ behind) := by
        rw [List.intercalate_cons_cons]
        simp
      rw [htext, splitAtCommas_comma hdepth, hrest]
      rfl
    · have hfirst : trim (front ++ first ++ []) = first :=
        trim_pad hfront (fun c hc => (h.1.solid c hc).1) (by simp)
      rw [List.append_nil] at hfirst
      rw [hfirst, List.map_cons, htexts]

/-- The operands that stand between the commas are the parts of the line. -/
theorem operandParts_spec (number offset : Nat) {slices : List Slice} {operands : List (List Char)}
    (h : slices.map (fun s => trim s.text) = operands) (hne : ∀ o ∈ operands, o ≠ []) :
    ∃ parts, operandParts number offset slices = .ok parts ∧
      parts.map Part.text = operands.map String.ofList := by
  induction slices generalizing operands with
  | nil =>
    subst h
    exact ⟨[], rfl, rfl⟩
  | cons s slices ih =>
    subst h
    rw [List.map_cons, List.forall_mem_cons] at hne
    obtain ⟨parts, hparts, htexts⟩ := ih rfl hne.2
    -- there is an operand between the white space
    have hsome : s.trim.text.isEmpty = false := by
      rw [Bool.eq_false_iff]
      intro hempty
      exact hne.1 (List.isEmpty_iff.mp hempty)
    refine ⟨part number offset s.trim :: parts, ?_, ?_⟩
    · rw [operandParts, hsome, if_neg Bool.false_ne_true, hparts]
      rfl
    · rw [List.map_cons, htexts]
      rfl

theorem mem_intercalate {c : Char} {first : List Char} {texts : List (List Char)}
    (hc : c ∈ first) : c ∈ [','].intercalate (first :: texts) := by
  cases texts with
  | nil =>
    rw [List.intercalate_singleton]
    exact hc
  | cons second texts =>
    rw [List.intercalate_cons_cons]
    exact List.mem_append_left _ (List.mem_append_left _ hc)

/-- The operands of a command are those that stand between the commas, unless they are
too many. -/
theorem operands_spec (number offset start : Nat) {front behind : List Char}
    (hfront : ∀ c ∈ front, isBlank c = true) (hbehind : ∀ c ∈ behind, isBlank c = true)
    {texts : List (List Char)} (h : ∀ o ∈ texts, IsOperand o) :
    ∃ parts : List Part, parts.map Part.text = texts.map String.ofList ∧
      operands number offset ⟨start, front ++ [','].intercalate texts ++ behind⟩ =
        match parts.drop maxOperands with
        | [] => .ok parts
        | extra :: _ => .error (.malformed (.tooManyOperands parts.length) extra.span) := by
  unfold operands
  cases texts with
  | nil =>
    have hempty : trim (front ++ [','].intercalate [] ++ behind) = [] :=
      trim_pad hfront (by simp) hbehind
    refine ⟨[], rfl, ?_⟩
    dsimp only
    rw [hempty]
    rfl
  | cons first texts =>
    obtain ⟨head, slices, hsplit, htexts⟩ := splitAtCommas_intercalate hfront hbehind h start
    obtain ⟨parts, hparts, htexts'⟩ := @operandParts_spec number offset (⟨start, head⟩ :: slices)
      _ htexts fun o ho => (h o ho).nonempty
    refine ⟨parts, htexts', ?_⟩
    have hsome :
        (trim (front ++ [','].intercalate (first :: texts) ++ behind)).isEmpty = false := by
      rw [Bool.eq_false_iff]
      intro hempty
      obtain ⟨c, hc⟩ := List.exists_mem_of_ne_nil first (h first List.mem_cons_self).nonempty
      have hblank := trim_eq_nil_iff.mp (List.isEmpty_iff.mp hempty) c
        (List.mem_append_left _ (List.mem_append_right _ (mem_intercalate hc)))
      rw [((h first List.mem_cons_self).solid c hc).1] at hblank
      cases hblank
    dsimp only
    rw [hsome, if_neg Bool.false_ne_true, splitOperands, hsplit]
    show (operandParts number offset (⟨start, head⟩ :: slices) >>= _) = _
    rw [hparts, ok_bind]
    cases parts.drop maxOperands <;> rfl

/-! ## Whole lines -/

/-- Whether the text can be the name of a command: plain characters. -/
structure IsWord (cs : List Char) : Prop where
  nonempty : cs ≠ []
  plain : ∀ c ∈ cs, isPlain c = true

theorem inWord_of_isPlain {c : Char} (h : isPlain c = true) : inWord c = true := by
  rw [inWord, isBlank_of_isPlain h]
  exact bne_iff_ne.mpr (ne_of_isPlain h rfl)

/-- The name of a command ends where white space begins. -/
theorem takeWhile_inWord {name behind : List Char} (hname : ∀ c ∈ name, isPlain c = true)
    (hbehind : behind.head?.all isBlank = true) :
    (name ++ behind).takeWhile inWord = name ∧ (name ++ behind).dropWhile inWord = behind := by
  have hin : ∀ c ∈ name, inWord c = true := fun c hc => inWord_of_isPlain (hname c hc)
  rw [List.takeWhile_append_of_pos hin, List.dropWhile_append_of_pos hin]
  cases behind with
  | nil => exact ⟨List.append_nil name, rfl⟩
  | cons c cs =>
    have hout : ¬ inWord c = true := by
      rw [inWord, show isBlank c = true from hbehind]
      exact Bool.false_ne_true
    rw [List.takeWhile_cons_of_neg hout, List.dropWhile_cons_of_neg hout]
    exact ⟨List.append_nil name, rfl⟩

/-- White space in front of something else is trimmed. -/
theorem trimStart_pad {front cs : List Char} (hfront : ∀ c ∈ front, isBlank c = true)
    (hcs : cs.head?.all (fun c => !isBlank c) = true) (start : Nat) :
    (⟨start, front ++ cs⟩ : Slice).trimStart = ⟨start + width front, cs⟩ := by
  rw [Slice.trimStart, Slice.dropWhile, List.takeWhile_append_of_pos hfront,
    List.dropWhile_append_of_pos hfront]
  cases cs with
  | nil => rw [List.takeWhile_nil, List.dropWhile_nil, List.append_nil]
  | cons c cs =>
    have hc : ¬ isBlank c = true := by simpa using hcs
    rw [List.takeWhile_cons_of_neg hc, List.dropWhile_cons_of_neg hc, List.append_nil]

/-- There are no labels in front of a name with white space behind it. -/
theorem splitLabels_word {front name behind : List Char} (hfront : ∀ c ∈ front, isBlank c = true)
    (hname : IsWord name) (hbehind : behind.head?.all isBlank = true) (start : Nat) :
    splitLabels ⟨start, front ++ (name ++ behind)⟩ =
      ([], ⟨start + width front, name ++ behind⟩) := by
  have hhead : (name ++ behind).head?.all (fun c => !isBlank c) = true := by
    obtain ⟨c, cs, hcs⟩ := List.exists_cons_of_ne_nil hname.nonempty
    have hc := hname.plain c (by rw [hcs]; exact List.mem_cons_self)
    rw [hcs]
    simpa using isBlank_of_isPlain hc
  have hafter : ((⟨start + width front, name ++ behind⟩ : Slice).dropWhile inWord).text = behind :=
    (takeWhile_inWord hname.plain hbehind).2
  rw [splitLabels, trimStart_pad hfront hhead]
  dsimp only
  split
  · next tail htail =>
    rw [hafter] at htail
    rw [htail] at hbehind
    cases hbehind
  · rfl

theorem mem_of_mem_intercalate {c : Char} {texts : List (List Char)}
    (hc : c ∈ [','].intercalate texts) : c = ',' ∨ ∃ o ∈ texts, c ∈ o := by
  induction texts with
  | nil => cases hc
  | cons first texts ih =>
    cases texts with
    | nil =>
      rw [List.intercalate_singleton] at hc
      exact Or.inr ⟨first, List.mem_cons_self, hc⟩
    | cons second texts =>
      rw [List.intercalate_cons_cons, List.mem_append, List.mem_append] at hc
      rcases hc with (hc | hc) | hc
      · exact Or.inr ⟨first, List.mem_cons_self, hc⟩
      · exact Or.inl (List.mem_singleton.mp hc)
      · rcases ih hc with hc | ⟨o, ho, hc⟩
        · exact Or.inl hc
        · exact Or.inr ⟨o, List.mem_cons_of_mem _ ho, hc⟩

/-- The text of operands behind the name of a command. -/
def argumentText (texts : List (List Char)) : List Char :=
  if texts = [] then [] else ' ' :: [','].intercalate texts

/-- A line with a command and a comment is parsed to the command, unless it has too many
operands. -/
theorem parse_eq {name remark behind : List Char} {texts : List (List Char)}
    (hname : IsWord name) (htexts : ∀ o ∈ texts, IsOperand o)
    (hremark : remark.takeWhile (· != ';') = behind) (hbehind : ∀ c ∈ behind, isBlank c = true)
    (number offset : Nat) :
    ∃ command : Command, command.name.text = String.ofList name ∧
      command.operands.map Part.text = texts.map String.ofList ∧
      parse (name ++ argumentText texts ++ remark) number offset =
        match command.operands.drop maxOperands with
        | [] => .ok ⟨[], some command⟩
        | extra :: _ =>
          .error (.malformed (.tooManyOperands command.operands.length) extra.span) := by
  obtain ⟨front, hfront, hargs, hhead⟩ : ∃ front, (∀ c ∈ front, isBlank c = true ∧ c ≠ ';') ∧
      argumentText texts = front ++ [','].intercalate texts ∧
      (front ++ [','].intercalate texts ++ behind).head?.all isBlank = true := by
    unfold argumentText
    by_cases hnil : texts = []
    · refine ⟨[], by simp, by rw [hnil]; rfl, ?_⟩
      rw [hnil]
      cases behind with
      | nil => rfl
      | cons c cs => exact hbehind c List.mem_cons_self
    · exact ⟨[' '], by decide, by rw [if_neg hnil]; rfl, rfl⟩
  -- the comment is cut off
  have hcut : (name ++ argumentText texts ++ remark).takeWhile (· != ';') =
      name ++ (front ++ [','].intercalate texts ++ behind) := by
    rw [hargs, List.takeWhile_append_of_pos, hremark, List.append_assoc]
    intro c hc
    rw [bne_iff_ne]
    rcases List.mem_append.mp hc with hc | hc
    · exact ne_of_isPlain (hname.plain c hc) rfl
    · rcases List.mem_append.mp hc with hc | hc
      · exact (hfront c hc).2
      · rcases mem_of_mem_intercalate hc with rfl | ⟨o, ho, hc⟩
        · decide
        · exact ((htexts o ho).solid c hc).2
  let args := front ++ [','].intercalate texts ++ behind
  obtain ⟨parts, htexts', hparts⟩ := operands_spec number offset (0 + width name)
    (fun c hc => (hfront c hc).1) hbehind htexts
  have hword := takeWhile_inWord hname.plain hhead
  have hdrop : (⟨0, name ++ args⟩ : Slice).dropWhile inWord = ⟨0 + width name, args⟩ := by
    rw [Slice.dropWhile, hword.1, hword.2]
  have htake : (⟨0, name ++ args⟩ : Slice).takeWhile inWord = ⟨0, name⟩ := by
    rw [Slice.takeWhile, hword.1]
  -- the name ends where the white space in front of the operands begins
  have hsome : (name ++ args).isEmpty = false := by
    rw [Bool.eq_false_iff]
    intro hempty
    exact hname.nonempty (List.append_eq_nil_iff.mp (List.isEmpty_iff.mp hempty)).1
  refine ⟨⟨part number offset ⟨0, name⟩, parts, String.ofList (trim (name ++ args))⟩, rfl,
    htexts', ?_⟩
  have hlabels : splitLabels ⟨0, name ++ args⟩ = ([], ⟨0, name ++ args⟩) :=
    @splitLabels_word [] _ _ (by simp) hname hhead 0
  unfold parse
  rw [hcut, hlabels]
  show (if (name ++ args).isEmpty = true then _ else _) = _
  rw [hsome, if_neg Bool.false_ne_true, hdrop, hparts, htake]
  dsimp only
  cases parts.drop maxOperands <;> rfl

/-- A line with a command that has few operands is parsed to the command. -/
theorem parse_line {name remark behind : List Char} {texts : List (List Char)}
    (hname : IsWord name) (htexts : ∀ o ∈ texts, IsOperand o) (hcount : texts.length ≤ maxOperands)
    (hremark : remark.takeWhile (· != ';') = behind) (hbehind : ∀ c ∈ behind, isBlank c = true)
    (number offset : Nat) :
    ∃ command, parse (name ++ argumentText texts ++ remark) number offset = .ok ⟨[], some command⟩ ∧
      command.name.text = String.ofList name ∧
      command.operands.map Part.text = texts.map String.ofList := by
  obtain ⟨command, hcommand, hoperands, hparse⟩ :=
    parse_eq hname htexts hremark hbehind number offset
  have hlength := congrArg List.length hoperands
  rw [List.length_map, List.length_map] at hlength
  rw [List.drop_eq_nil_of_le (by omega)] at hparse
  exact ⟨command, hparse, hcommand, hoperands⟩

/-- A line with a command that has more operands than any instruction is rejected. -/
theorem parse_too_many {name remark behind : List Char} {texts : List (List Char)}
    (hname : IsWord name) (htexts : ∀ o ∈ texts, IsOperand o) (hcount : maxOperands < texts.length)
    (hremark : remark.takeWhile (· != ';') = behind) (hbehind : ∀ c ∈ behind, isBlank c = true)
    (number offset : Nat) :
    ∃ span, parse (name ++ argumentText texts ++ remark) number offset =
      .error (.malformed (.tooManyOperands texts.length) span) := by
  obtain ⟨command, -, hoperands, hparse⟩ := parse_eq hname htexts hremark hbehind number offset
  have hlength := congrArg List.length hoperands
  rw [List.length_map, List.length_map] at hlength
  cases hdrop : command.operands.drop maxOperands with
  | nil =>
    rw [List.drop_eq_nil_iff] at hdrop
    omega
  | cons extra rest =>
    rw [hdrop, hlength] at hparse
    exact ⟨extra.span, hparse⟩

end Line

end Stm8
