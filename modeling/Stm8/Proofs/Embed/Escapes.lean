import Stm8.Proofs.Embed.Denotation

/-!
# Which literals are read as they are meant

The reader of string literals does not know all escapes: a code stays as it is spelled, and a
line break behind a backslash takes more away than the indentation if other white space
follows (`isMissed`). To see that each of these makes a difference, texts are weighed: white
space that is no indentation weighs less than nothing, and all that is no white space weighs
something. A missed escape leaves a text behind that is heavier than the source:

> `Denotes.weight_le`: every missed escape adds to the weight.
> `Denotes.unescape_eq_iff`: a literal is read as it is meant exactly if no escape is missed.
> `expectString_literal`: every literal is read. What is read is what it stands for exactly if
> no escape is missed; an escaped text is read as the text exactly if it needs no codes.
-/

namespace Stm8.Embed

open Stm8.Text

/-- What stands behind each backslash that begins an escape. -/
def behindBackslashes : List Char → List (List Char)
  | '\\' :: c :: cs => (c :: cs) :: behindBackslashes cs
  | _ :: cs => behindBackslashes cs
  | [] => []

/-- What stands behind the backslashes of a literal. A raw literal has no escapes. -/
def escapesOf : List Char → List (List Char)
  | 'r' :: _ => []
  | text => behindBackslashes text.tail.dropLast

/-- Whether the reader misses what this escape stands for: it is a code, or a line break with
white space behind its indentation. -/
def isMissed : List Char → Bool
  | 'x' :: _ => true
  | 'u' :: _ => true
  | '\n' :: cs => (cs.dropWhile isIndent).head?.any isBlank
  | _ => false

/-! ## Escapes -/

theorem behindBackslashes_of_ne {c : Char} (h : c ≠ '\\') (cs : List Char) :
    behindBackslashes (c :: cs) = behindBackslashes cs := by
  rw [behindBackslashes.eq_def]
  split
  next htext => exact absurd (List.cons.inj htext).1 h
  next htext => rw [(List.cons.inj htext).2]
  next htext => cases htext

theorem behindBackslashes_append {front : List Char} (h : '\\' ∉ front) (cs : List Char) :
    behindBackslashes (front ++ cs) = behindBackslashes cs := by
  induction front with
  | nil => rfl
  | cons c front ih =>
    rw [List.mem_cons, not_or] at h
    rw [List.cons_append, behindBackslashes_of_ne (Ne.symm h.1), ih h.2]

/-- The digits of a code are no white space and no backslashes. -/
theorem solid_of_isAlphanum {c : Char} (h : c.isAlphanum = true) :
    isBlank c = false ∧ c ≠ '\\' := by
  refine ⟨isBlank_of_isPlain (isPlain_of_isAlphanum h), ?_⟩
  rintro rfl
  cases h

/-- An escape is a name that the reader knows, or a code that it misses. -/
theorem IsEscape.known_or_missed {spelling : List Char} {c : Char} (h : IsEscape spelling c) :
    (∃ name, spelling = [name] ∧ simpleEscape? name = some c ∧
      ∀ cs, isMissed (name :: cs) = false) ∨
    ∃ letter digits, spelling = letter :: digits ∧ letter ≠ '\n' ∧ simpleEscape? letter = none ∧
      (∀ cs, isMissed (letter :: cs) = true) ∧
      ∀ d ∈ letter :: digits, isBlank d = false ∧ d ≠ '\\' := by
  cases h with
  | simple hname =>
    refine Or.inl ⟨_, rfl, ?_⟩
    simp only [simpleEscapes, List.mem_cons, Prod.mk.injEq, List.not_mem_nil, or_false] at hname
    rcases hname with ⟨rfl, rfl⟩ | ⟨rfl, rfl⟩ | ⟨rfl, rfl⟩ | ⟨rfl, rfl⟩ | ⟨rfl, rfl⟩ |
      ⟨rfl, rfl⟩ | ⟨rfl, rfl⟩ <;> exact ⟨rfl, fun _ => rfl⟩
  | ascii hhigh hlow =>
    refine Or.inr ⟨'x', _, rfl, by decide, rfl, fun _ => rfl, ?_⟩
    simp only [List.forall_mem_cons]
    exact ⟨by decide, solid_of_isAlphanum (hhigh.isAlphanum (by decide)),
      solid_of_isAlphanum (hlow.isAlphanum (by decide)), by simp⟩
  | unicode hds =>
    refine Or.inr ⟨'u', _, rfl, by decide, rfl, fun _ => rfl, ?_⟩
    simp only [List.forall_mem_cons, List.forall_mem_append]
    refine ⟨by decide, by decide, fun d hd => ?_, by decide, by simp⟩
    rcases hds.forall_mem d hd with rfl | ⟨n, hn⟩
    · decide
    · exact solid_of_isAlphanum (hn.isAlphanum (by decide))

/-! ## The reader -/

theorem unescape_known {name c : Char} (h : simpleEscape? name = some c) (cs : List Char) :
    unescape ('\\' :: name :: cs) = c :: unescape cs := by
  have hbreak : name ≠ '\n' := by
    rintro rfl
    cases h
  rw [unescape]
  · rw [h]
  · exact hbreak

theorem unescape_unknown {letter : Char} (hbreak : letter ≠ '\n')
    (h : simpleEscape? letter = none) (cs : List Char) :
    unescape ('\\' :: letter :: cs) = '\\' :: letter :: unescape cs := by
  rw [unescape]
  · rw [h]
  · exact hbreak

theorem unescape_lineBreak (cs : List Char) :
    unescape ('\\' :: '\n' :: cs) = unescape (cs.dropWhile isBlank) := by
  rw [unescape]

/-- White space in front stands for itself. -/
theorem unescape_eq_append (cs : List Char) :
    unescape cs = cs.takeWhile isBlank ++ unescape (cs.dropWhile isBlank) := by
  have hslash : '\\' ∉ cs.takeWhile isBlank := fun hmem =>
    absurd (List.all_eq_true.mp (@List.all_takeWhile _ isBlank cs) _ hmem) (by decide)
  rw [← unescape_append hslash, List.takeWhile_append_dropWhile]

theorem isBlank_of_isIndent {c : Char} (h : isIndent c = true) : isBlank c = true := by
  have hall : ∀ c ∈ " \t\n\r".toList, isBlank c = true := by decide
  exact hall c (List.contains_iff_mem.mp h)

/-- What a line break takes away from the text behind the indentation. -/
theorem dropWhile_indent {indent body : List Char} (hindent : ∀ c ∈ indent, isIndent c = true)
    (hbody : body.head?.any isIndent = false) :
    (indent ++ body).dropWhile isBlank = body.dropWhile isBlank ∧
      isMissed ('\n' :: (indent ++ body)) = body.head?.any isBlank ∧
      behindBackslashes (indent ++ body) = behindBackslashes body := by
  refine ⟨?_, ?_, ?_⟩
  · exact List.dropWhile_append_of_pos fun c hc => isBlank_of_isIndent (hindent c hc)
  · show ((indent ++ body).dropWhile isIndent).head?.any isBlank = _
    rw [dropWhile_append_of_head hindent hbody]
  · exact behindBackslashes_append (fun hmem => absurd (hindent _ hmem) (by decide)) body

/-! ## Weights -/

/-- The weight of a character: white space that is no indentation has less than none, and all
that is no white space has some. -/
def weightOf (c : Char) : Int :=
  if isBlank c then if isIndent c then 0 else -1 else 1

/-- The weight of a text. -/
def weight (cs : List Char) : Int :=
  (cs.map weightOf).sum

theorem weight_cons (c : Char) (cs : List Char) : weight (c :: cs) = weightOf c + weight cs := by
  rw [weight, List.map_cons, List.sum_cons]
  rfl

theorem weight_append (cs ds : List Char) : weight (cs ++ ds) = weight cs + weight ds := by
  rw [weight, List.map_append, List.sum_append]
  rfl

theorem weightOf_le (c : Char) : weightOf c ≤ 1 := by
  unfold weightOf
  split
  · split <;> omega
  · exact Int.le_refl 1

theorem weightOf_of_solid {c : Char} (h : isBlank c = false) : weightOf c = 1 := by
  rw [weightOf, h]
  rfl

/-- White space weighs nothing or less. -/
theorem weight_of_blank {cs : List Char} (h : ∀ c ∈ cs, isBlank c = true) : weight cs ≤ 0 := by
  induction cs with
  | nil => exact Int.le_refl 0
  | cons c cs ih =>
    rw [List.forall_mem_cons] at h
    have hc : weightOf c ≤ 0 := by
      rw [weightOf, if_pos h.1]
      split <;> omega
    have hcs := ih h.2
    rw [weight_cons]
    omega

/-- All else does not. -/
theorem weight_of_solid {cs : List Char} (h : ∀ c ∈ cs, isBlank c = false) : 0 ≤ weight cs := by
  induction cs with
  | nil => exact Int.le_refl 0
  | cons c cs ih =>
    rw [List.forall_mem_cons] at h
    have hcs := ih h.2
    rw [weight_cons, weightOf_of_solid h.1]
    omega

/-- White space behind the indentation weighs less than nothing. -/
theorem weight_takeWhile {body : List Char} (hbody : body.head?.any isIndent = false) :
    weight (body.takeWhile isBlank) +
      ((if body.head?.any isBlank then 1 else 0 : Nat) : Int) ≤ 0 := by
  cases body with
  | nil => exact Int.le_refl 0
  | cons c cs =>
    rw [List.head?_cons, Option.any_some]
    cases hc : isBlank c with
    | false =>
      rw [List.takeWhile_cons_of_neg (by rw [hc]; exact Bool.false_ne_true)]
      exact Int.le_refl 0
    | true =>
      have hother : isIndent c = false := hbody
      have hweight : weightOf c = -1 := by
        rw [weightOf, if_pos hc, hother]
        rfl
      have hrest := weight_of_blank (List.all_eq_true.mp (@List.all_takeWhile _ isBlank cs))
      rw [List.takeWhile_cons_of_pos hc, weight_cons, hweight, if_pos rfl]
      omega

/-- **Every missed escape adds to the weight.** -/
theorem Denotes.weight_le {body source : List Char} (h : Denotes body source) :
    weight source + (behindBackslashes body).countP isMissed ≤ weight (unescape body) := by
  induction h with
  | nil =>
    rw [unescape]
    exact Int.le_refl 0
  | plain hslash _ _ _ ih =>
    rw [unescape_of_ne hslash, behindBackslashes_of_ne hslash, weight_cons, weight_cons]
    omega
  | @escape spelling body source c hescape _ ih =>
    rcases hescape.known_or_missed with ⟨name, rfl, hname, hknown⟩ |
      ⟨letter, digits, rfl, hbreak, hletter, hmissed, hsolid⟩
    · show _ + (((name :: body) :: behindBackslashes body).countP isMissed : Int) ≤ _
      rw [List.singleton_append, unescape_known hname,
        List.countP_cons_of_neg (by rw [hknown]; exact Bool.false_ne_true), weight_cons,
        weight_cons]
      omega
    · rw [List.forall_mem_cons] at hsolid
      have hslash : '\\' ∉ digits := fun hmem => (hsolid.2 _ hmem).2 rfl
      have hdigits := weight_of_solid fun d hd => (hsolid.2 d hd).1
      have hc := weightOf_le c
      show _ + (((letter :: (digits ++ body)) ::
        behindBackslashes (digits ++ body)).countP isMissed : Int) ≤ _
      rw [List.cons_append, unescape_unknown hbreak hletter, unescape_append hslash,
        behindBackslashes_append hslash, List.countP_cons_of_pos (hmissed _), weight_cons,
        weight_cons, weight_cons, weight_append, weightOf_of_solid (c := '\\') rfl,
        weightOf_of_solid hsolid.1.1]
      omega
  | @lineBreak indent body source hindent hbody _ ih =>
    obtain ⟨hskip, hmissed, hbehind⟩ := dropWhile_indent hindent hbody
    have hblank := weight_takeWhile hbody
    show _ + ((('\n' :: (indent ++ body)) ::
      behindBackslashes (indent ++ body)).countP isMissed : Int) ≤ _
    rw [unescape_eq_append, weight_append] at ih
    rw [unescape_lineBreak, hskip, hbehind, List.countP_cons, hmissed]
    omega

/-- **A literal is read as it is meant exactly if no escape is missed.** -/
theorem Denotes.unescape_eq_iff {body source : List Char} (h : Denotes body source) :
    unescape body = source ↔ ∀ e ∈ behindBackslashes body, isMissed e = false := by
  constructor
  · intro heq
    have hle := h.weight_le
    rw [heq] at hle
    have hnone : (behindBackslashes body).countP isMissed = 0 := by omega
    exact fun e he => Bool.eq_false_iff.mpr (List.countP_eq_zero.mp hnone e he)
  · intro hall
    induction h with
    | nil => rw [unescape]
    | plain hslash _ _ _ ih =>
      rw [behindBackslashes_of_ne hslash] at hall
      rw [unescape_of_ne hslash, ih hall]
    | @escape spelling body source c hescape _ ih =>
      rcases hescape.known_or_missed with ⟨name, rfl, hname, -⟩ |
        ⟨letter, digits, rfl, -, -, hmissed, -⟩
      · have hrest : ∀ e ∈ behindBackslashes body, isMissed e = false := fun e he =>
          hall e (List.mem_cons_of_mem (name :: body) he)
        rw [List.singleton_append, unescape_known hname, ih hrest]
      · have hfirst := hall (letter :: (digits ++ body)) List.mem_cons_self
        rw [hmissed] at hfirst
        cases hfirst
    | @lineBreak indent body source hindent hbody _ ih =>
      obtain ⟨hskip, hmissed, hbehind⟩ := dropWhile_indent hindent hbody
      have hfirst : isMissed ('\n' :: (indent ++ body)) = false := hall _ List.mem_cons_self
      have hrest : ∀ e ∈ behindBackslashes body, isMissed e = false := fun e he =>
        hall e (List.mem_cons_of_mem ('\n' :: (indent ++ body)) (hbehind ▸ he))
      have hstays : body.dropWhile isBlank = body :=
        @dropWhile_append_of_head _ [] _ (by simp) (hmissed ▸ hfirst)
      rw [unescape_lineBreak, hskip, hstays, ih hrest]

theorem escapesOf_quoted (body : List Char) :
    escapesOf (quote :: body ++ [quote]) = behindBackslashes body := by
  show behindBackslashes (body ++ [quote]).dropLast = _
  rw [List.dropLast_concat]

/-- A literal is read, and as what it stands for exactly if no escape is missed. -/
theorem IsLiteral.exists_read {text source : String} (h : IsLiteral text source) (position : Nat) :
    ∃ read, expectString position (.literal text) = .ok read ∧
      (read = source ↔ ∀ e ∈ escapesOf text.toList, isMissed e = false) := by
  cases h with
  | @plain body htext hbody =>
    refine ⟨_, expectString_of_isString (Or.inl ⟨body, htext, rfl⟩) position, ?_⟩
    rw [htext, escapesOf_quoted, ← hbody.unescape_eq_iff]
    constructor
    · intro hread
      rw [← hread, String.toList_ofList]
    · intro hread
      rw [hread, String.ofList_toList]
  | @raw hashes htext _ _ =>
    refine ⟨source, expectString_of_isString (Or.inr ⟨hashes, _, htext, ?_⟩) position, ?_⟩
    · rw [String.ofList_toList]
    · rw [htext]
      exact iff_of_true rfl fun e he => absurd he List.not_mem_nil

/-! ## Escaped texts -/

/-- The escaped text between quotes. -/
def escaped (source : String) : String :=
  "\x22" ++ String.ofList (escape source.toList) ++ "\x22"

/-- Whether the character is escaped without its code: it is visible ASCII or a blank, or has a
name. -/
def IsNamed (c : Char) : Prop :=
  (0x20 ≤ c.toNat ∧ c.toNat ≤ 0x7E) ∨ c = '\t' ∨ c = '\n' ∨ c = '\r'

theorem toList_escaped (source : String) :
    (escaped source).toList = quote :: escape source.toList ++ [quote] := by
  unfold escaped
  simp only [String.toList_append, String.toList_ofList]
  rfl

/-- An escaped text is spelled as a literal. -/
theorem isLiteral_escaped (source : String) : IsLiteral (escaped source) source :=
  .plain (toList_escaped source) (denotes_escape _)

/-- The escape of a character is missed if it is a code. -/
theorem behindBackslashes_escapeChar (c : Char) (cs : List Char) :
    (∀ e ∈ behindBackslashes (escapeChar c ++ cs), isMissed e = false) ↔
      IsNamed c ∧ ∀ e ∈ behindBackslashes cs, isMissed e = false := by
  unfold escapeChar
  split
  case h_7 _ htab hreturn hbreak _ _ hslash =>
    split
    · next hvisible =>
      rw [Bool.and_eq_true, decide_eq_true_iff, decide_eq_true_iff] at hvisible
      rw [List.singleton_append, behindBackslashes_of_ne hslash]
      exact (and_iff_right (Or.inl hvisible)).symm
    · next hinvisible =>
      rw [Bool.and_eq_true, decide_eq_true_iff, decide_eq_true_iff] at hinvisible
      have hcode : ¬ IsNamed c := by
        rintro (hvisible | rfl | rfl | rfl)
        · exact hinvisible hvisible
        · exact htab rfl
        · exact hbreak rfl
        · exact hreturn rfl
      refine iff_of_false (fun hall => ?_) fun hnamed => hcode hnamed.1
      have hfirst := hall _ List.mem_cons_self
      cases hfirst
  all_goals
    show (∀ e ∈ (_ :: cs) :: behindBackslashes cs, isMissed e = false) ↔ _
    rw [List.forall_mem_cons]
    exact and_congr_left fun _ => iff_of_true rfl (by unfold IsNamed; decide)

theorem behindBackslashes_escape (cs : List Char) :
    (∀ e ∈ behindBackslashes (escape cs), isMissed e = false) ↔ ∀ c ∈ cs, IsNamed c := by
  induction cs with
  | nil => simp [escape, behindBackslashes]
  | cons c cs ih =>
    rw [List.forall_mem_cons, ← ih]
    exact behindBackslashes_escapeChar c (escape cs)

/-! ## The main result -/

/-- **Which literals are read as they are meant.** Every literal is read. What is read is what it
stands for exactly if it has no codes among its escapes, and no white space behind a line break
but the indentation; a raw literal always is. An escaped text is such a literal, and it is read as
the text exactly if the text needs no codes. -/
theorem expectString_literal (text source : String) (position : Nat) :
    (IsLiteral text source →
      ∃ read, expectString position (.literal text) = .ok read ∧
        (read = source ↔ ∀ e ∈ escapesOf text.toList, isMissed e = false)) ∧
    IsLiteral (escaped source) source ∧
      (expectString position (.literal (escaped source)) = .ok source ↔
        ∀ c ∈ source.toList, IsNamed c) := by
  have hliteral := isLiteral_escaped source
  refine ⟨fun h => h.exists_read position, hliteral, ?_⟩
  obtain ⟨read, hread, hiff⟩ := hliteral.exists_read position
  rw [hread, Except.ok.injEq, hiff, toList_escaped, escapesOf_quoted, behindBackslashes_escape]

/-- A line break behind a backslash is taken away with its indentation. -/
theorem expectString_literal_lineBreak :
    IsLiteral "\x22nop\\n\\\n\t ret\x22" "nop\nret" ∧
      (∀ e ∈ escapesOf "\x22nop\\n\\\n\t ret\x22".toList, isMissed e = false) ∧
      expectString 0 (.literal "\x22nop\\n\\\n\t ret\x22") = .ok "nop\nret" := by
  have hbody : Denotes ("nop".toList ++ '\\' :: 'n' :: '\\' :: '\n' :: '\t' :: ' ' :: "ret".toList)
      ("nop".toList ++ '\n' :: "ret".toList) := by
    refine @denotes_append "nop".toList (by decide) _ _ ?_
    refine @Denotes.escape ['n'] _ _ _ (.simple (by decide)) ?_
    refine @Denotes.lineBreak ['\t', ' '] _ _ (by decide) (by decide) ?_
    exact denotes_self (by decide)
  have hliteral : IsLiteral "\x22nop\\n\\\n\t ret\x22" "nop\nret" :=
    .plain (by decide) hbody
  have hknown : ∀ e ∈ escapesOf "\x22nop\\n\\\n\t ret\x22".toList, isMissed e = false := by
    decide
  obtain ⟨read, hread, hiff⟩ := (expectString_literal _ _ 0).1 hliteral
  exact ⟨hliteral, hknown, hiff.mpr hknown ▸ hread⟩

/-- A code is not read, and a line break takes away white space that is no indentation. -/
theorem not_expectString_literal :
    (IsLiteral "\x22\\x6eop\x22" "nop" ∧
      expectString 0 (.literal "\x22\\x6eop\x22") ≠ .ok "nop") ∧
    IsLiteral "\x22n\\\n\u00a0op\x22" "n\u00a0op" ∧
      expectString 0 (.literal "\x22n\\\n\u00a0op\x22") ≠ .ok "n\u00a0op" := by
  have hcode : IsLiteral "\x22\\x6eop\x22" "nop" := by
    have hbody : Denotes ('\\' :: 'x' :: '6' :: 'e' :: "op".toList) ('n' :: "op".toList) :=
      .escape (.ascii (a := 6) (b := 14) ⟨by decide, rfl⟩ ⟨by decide, rfl⟩)
        (denotes_self (by decide))
    exact .plain (by decide) hbody
  have hbreak : IsLiteral "\x22n\\\n\u00a0op\x22" "n\u00a0op" := by
    have hbody : Denotes ('n' :: '\\' :: '\n' :: "\u00a0op".toList) ('n' :: "\u00a0op".toList) :=
      .plain (by decide) (by decide) (by decide)
        (@Denotes.lineBreak [] _ _ (by decide) (by decide) (denotes_self (by decide)))
    exact .plain (by decide) hbody
  refine ⟨⟨hcode, fun hread => ?_⟩, hbreak, fun hread => ?_⟩
  · obtain ⟨read, hok, hiff⟩ := hcode.exists_read 0
    rw [hok, Except.ok.injEq, hiff] at hread
    exact absurd hread (by decide)
  · obtain ⟨read, hok, hiff⟩ := hbreak.exists_read 0
    rw [hok, Except.ok.injEq, hiff] at hread
    exact absurd hread (by decide)

end Stm8.Embed
