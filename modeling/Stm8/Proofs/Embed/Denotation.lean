import Stm8.Proofs.Embed.Invocation
import Stm8.Proofs.Text.Radix

/-!
# What the host language reads in a literal

What can stand between the quotes of a string literal: characters that stand for themselves,
escapes, and line breaks behind a backslash, which vanish together with the indentation behind
them (`Denotes`). The host language reads just that (`literalText?`), and an escaped text is
spelled like that:

> `literalText?_of_denotes`: what is denoted is read.
> `denotes_escape`: an escaped text denotes the text.
> `literalText?_escape`: the host language reads an escaped text as the text.
-/

namespace Stm8.Embed

open Stm8.Text

/-! ## The grammar -/

/-- The white space that a line break behind a backslash takes away with it. -/
def isIndent (c : Char) : Bool :=
  " \t\n\r".toList.contains c

/-- The characters behind a backslash that name another one. -/
def simpleEscapes : List (Char × Char) :=
  [('n', '\n'), ('t', '\t'), ('r', '\r'), ('0', '\x00'), ('\\', '\\'), ('\x22', '\x22'),
    ('\x27', '\x27')]

/-- What can stand behind a backslash, and the character that it stands for: a name, two digits
of a code, or one to six digits of a code in braces. -/
inductive IsEscape : List Char → Char → Prop where
  | simple {name c : Char} : (name, c) ∈ simpleEscapes → IsEscape [name] c
  | ascii {high low : Char} {a b : Nat} :
      IsDigit 8 high a → IsDigit 16 low b → IsEscape ['x', high, low] (Char.ofNat (16 * a + b))
  | unicode {digits : List Char} {ds : List Nat} :
      IsDigits 16 digits ds → digits.head? ≠ some '_' → ds ≠ [] → ds.length ≤ 6 →
      (Nat.ofDigits 16 ds.reverse).isValidChar →
      IsEscape ('u' :: '\x7b' :: (digits ++ ['\x7d'])) (Char.ofNat (Nat.ofDigits 16 ds.reverse))

/-- Whether the text between the quotes of a literal stands for the source. -/
inductive Denotes : List Char → List Char → Prop where
  | nil : Denotes [] []
  | plain {c : Char} {body source : List Char} :
      c ≠ '\\' → c ≠ quote → c ≠ '\r' → Denotes body source → Denotes (c :: body) (c :: source)
  | escape {spelling body source : List Char} {c : Char} :
      IsEscape spelling c → Denotes body source →
      Denotes ('\\' :: (spelling ++ body)) (c :: source)
  | lineBreak {indent body source : List Char} :
      (∀ c ∈ indent, isIndent c = true) → body.head?.any isIndent = false →
      Denotes body source → Denotes ('\\' :: '\n' :: (indent ++ body)) source

/-- Whether the text is a string literal that stands for the source. A raw literal has neither
its own end nor a carriage return in it. -/
inductive IsLiteral : String → String → Prop where
  | plain {text source : String} {body : List Char} :
      text.toList = quote :: body ++ [quote] → Denotes body source.toList → IsLiteral text source
  | raw {text source : String} {hashes : Nat} :
      text.toList = 'r' :: (List.replicate hashes '#' ++ [quote] ++ source.toList ++
        quote :: List.replicate hashes '#') →
      '\r' ∉ source.toList → ¬ (quote :: List.replicate hashes '#') <:+: source.toList →
      IsLiteral text source

/-- A text without anything special in it stands for itself. -/
theorem denotes_append {cs : List Char} (hcs : ∀ c ∈ cs, c ≠ '\\' ∧ c ≠ quote ∧ c ≠ '\r')
    {body source : List Char} (h : Denotes body source) : Denotes (cs ++ body) (cs ++ source) := by
  induction cs with
  | nil => exact h
  | cons c cs ih =>
    rw [List.forall_mem_cons] at hcs
    exact .plain hcs.1.1 hcs.1.2.1 hcs.1.2.2 (ih hcs.2)

theorem denotes_self {cs : List Char} (hcs : ∀ c ∈ cs, c ≠ '\\' ∧ c ≠ quote ∧ c ≠ '\r') :
    Denotes cs cs := by
  have hall := denotes_append hcs .nil
  rwa [List.append_nil] at hall

/-! ## The host language -/

/-- The character of an escape, and what stands behind it. -/
def readEscape? : List Char → Option (Char × List Char)
  | 'x' :: high :: low :: cs =>
    ((readDigits? 16 [high, low]).filter (· < 0x80)).map fun n => (Char.ofNat n, cs)
  | 'u' :: '\x7b' :: cs =>
    let digits := (cs.takeWhile (· != '\x7d')).filter (· != '_')
    match cs.dropWhile (· != '\x7d') with
    | [] => none
    | _ :: rest =>
      if digits.length ≤ 6 then
        ((readDigits? 16 digits).filter fun n => decide n.isValidChar).map fun n =>
          (Char.ofNat n, rest)
      else none
  | c :: cs => (simpleEscape? c).map fun e => (e, cs)
  | [] => none

/-- An escape takes at least one character. -/
theorem length_of_readEscape? {cs rest : List Char} {c : Char}
    (h : readEscape? cs = some (c, rest)) : rest.length < cs.length := by
  unfold readEscape? at h
  split at h
  · obtain ⟨n, -, hn⟩ := Option.map_eq_some_iff.mp h
    obtain ⟨-, rfl⟩ := Prod.mk.inj hn
    simp only [List.length_cons]
    omega
  · next cs' =>
    dsimp only at h
    split at h
    · cases h
    · next first rest' hdrop =>
      split at h
      · obtain ⟨n, -, hn⟩ := Option.map_eq_some_iff.mp h
        obtain ⟨-, rfl⟩ := Prod.mk.inj hn
        have hshort := (List.dropWhile_sublist (l := cs') (· != '\x7d')).length_le
        rw [hdrop] at hshort
        simp only [List.length_cons] at hshort ⊢
        omega
      · cases h
  · obtain ⟨e, -, he⟩ := Option.map_eq_some_iff.mp h
    obtain ⟨-, rfl⟩ := Prod.mk.inj he
    exact Nat.lt_succ_self _
  · cases h

/-- The text that the host language reads between the quotes of a string literal: escapes
stand for characters, a backslash in front of a line break takes the white space behind it
away, and neither a quote nor a carriage return can stand by itself. -/
def literalText? : List Char → Option (List Char)
  | [] => some []
  | '\\' :: '\n' :: cs => literalText? (cs.dropWhile fun c => " \t\n\r".toList.contains c)
  | '\\' :: cs =>
    match _h : readEscape? cs with
    | some (c, rest) => (literalText? rest).map (c :: ·)
    | none => none
  | c :: cs => if c == quote || c == '\r' then none else (literalText? cs).map (c :: ·)
termination_by cs => cs.length
decreasing_by
  · have := (List.dropWhile_sublist (l := cs) fun c => " \t\n\r".toList.contains c).length_le
    simp only [List.length_cons]
    omega
  · have := length_of_readEscape? _h
    simp only [List.length_cons]
    omega
  · simp only [List.length_cons]
    omega

/-- An escape is read as its character. -/
theorem literalText?_of_readEscape? {cs rest : List Char} {c : Char}
    (h : readEscape? cs = some (c, rest)) (hbreak : ∀ behind, cs ≠ '\n' :: behind) :
    literalText? ('\\' :: cs) = (literalText? rest).map (c :: ·) := by
  rw [literalText?.eq_def]
  split
  next htext => cases htext
  next behind htext => exact absurd (List.cons.inj htext).2 (hbreak behind)
  next cs' _ htext =>
    obtain rfl := (List.cons.inj htext).2
    rw [h]
  next hother htext => exact (hother (List.cons.inj htext).1.symm).elim

/-- Other characters stand for themselves. -/
theorem literalText?_of_plain {c : Char} (hslash : c ≠ '\\') (hquote : c ≠ quote)
    (hreturn : c ≠ '\r') (cs : List Char) :
    literalText? (c :: cs) = (literalText? cs).map (c :: ·) := by
  rw [literalText?.eq_def]
  split
  next htext => cases htext
  next htext => exact absurd (List.cons.inj htext).1 hslash
  next htext => exact absurd (List.cons.inj htext).1 hslash
  next htext =>
    obtain ⟨rfl, rfl⟩ := List.cons.inj htext
    rw [if_neg]
    rw [Bool.or_eq_true, beq_iff_eq, beq_iff_eq]
    exact not_or.mpr ⟨hquote, hreturn⟩

theorem readEscape?_braces (cs : List Char) :
    readEscape? ('u' :: '\x7b' :: cs) =
      match cs.dropWhile (· != '\x7d') with
      | [] => none
      | _ :: rest =>
        if ((cs.takeWhile (· != '\x7d')).filter (· != '_')).length ≤ 6 then
          ((readDigits? 16 ((cs.takeWhile (· != '\x7d')).filter (· != '_'))).filter
            fun n => decide n.isValidChar).map fun n => (Char.ofNat n, rest)
        else none := rfl

/-- An escape is read, whatever stands behind it. -/
theorem IsEscape.readEscape?_append {spelling : List Char} {c : Char} (h : IsEscape spelling c)
    (behind : List Char) : readEscape? (spelling ++ behind) = some (c, behind) := by
  cases h with
  | simple hname =>
    simp only [simpleEscapes, List.mem_cons, Prod.mk.injEq, List.not_mem_nil, or_false] at hname
    rcases hname with ⟨rfl, rfl⟩ | ⟨rfl, rfl⟩ | ⟨rfl, rfl⟩ | ⟨rfl, rfl⟩ | ⟨rfl, rfl⟩ |
      ⟨rfl, rfl⟩ | ⟨rfl, rfl⟩ <;> rfl
  | @ascii high low a b hhigh hlow =>
    have hdigits : IsDigits 16 [high, low] [a, b] :=
      .digit (hhigh.mono (by decide)) (.digit hlow .nil)
    have hread := (readDigits?_filter_eq_some_iff (by decide)).mpr
      ⟨_, hdigits, List.cons_ne_nil _ _, rfl⟩
    have hvalue : Nat.ofDigits 16 [a, b].reverse = 16 * a + b := by
      simp [Nat.ofDigits_cons]
      omega
    have hsmall : 16 * a + b < 0x80 := by
      have hhigh := hhigh.1
      have hlow := hlow.1
      omega
    rw [filter_cons_of_ne (hhigh.ne_underscore (by decide)),
      filter_cons_of_ne (hlow.ne_underscore (by decide)), List.filter_nil, hvalue] at hread
    show ((readDigits? 16 [high, low]).filter (· < 0x80)).map (fun n => (Char.ofNat n, behind)) = _
    rw [hread, Option.filter_some, if_pos (decide_eq_true hsmall)]
    rfl
  | @unicode digits ds hds hfirst hne hlength hvalid =>
    have hbrace : '\x7d' ∉ digits := by
      intro hmem
      rcases hds.forall_mem _ hmem with hscore | ⟨d, hd⟩
      · cases hscore
      · cases hd.isAlphanum (by decide)
    have hread := (readDigits?_filter_eq_some_iff (by decide)).mpr ⟨_, hds, hne, rfl⟩
    show readEscape? ('u' :: '\x7b' :: (digits ++ ['\x7d'] ++ behind)) = _
    rw [List.append_assoc, List.singleton_append, readEscape?_braces, takeWhile_ne_append hbrace,
      dropWhile_ne_append hbrace]
    dsimp only
    rw [if_pos (hds.length_filter (by decide) ▸ hlength), hread, Option.filter_some,
      if_pos (decide_eq_true hvalid)]
    rfl

/-- Skipping stops at the first character that stays. -/
theorem dropWhile_append_of_head {p : Char → Bool} {front behind : List Char}
    (hfront : ∀ c ∈ front, p c = true) (hbehind : behind.head?.any p = false) :
    (front ++ behind).dropWhile p = behind := by
  rw [List.dropWhile_append_of_pos hfront]
  cases behind with
  | nil => rfl
  | cons c cs =>
    have hc : ¬ p c = true := Bool.eq_false_iff.mp hbehind
    exact List.dropWhile_cons_of_neg hc

/-- **What is denoted is read.** -/
theorem literalText?_of_denotes {body source : List Char} (h : Denotes body source) :
    literalText? body = some source := by
  induction h with
  | nil => rw [literalText?]
  | plain hslash hquote hreturn _ ih =>
    rw [literalText?_of_plain hslash hquote hreturn, ih]
    rfl
  | @escape spelling body source c hescape _ ih =>
    rw [literalText?_of_readEscape? (hescape.readEscape?_append body), ih]
    · rfl
    · intro behind hbreak
      cases hescape with
      | simple hname =>
        have hnames : ∀ x ∈ simpleEscapes, x.1 ≠ '\n' := by decide
        exact hnames _ hname (List.cons.inj hbreak).1
      | ascii => cases hbreak
      | unicode => cases hbreak
  | @lineBreak indent body source hindent hbody _ ih =>
    rw [literalText?]
    show literalText? ((indent ++ body).dropWhile isIndent) = _
    rw [dropWhile_append_of_head hindent hbody, ih]

/-! ## Escaped texts -/

/-- A character is escaped as its code. -/
theorem isEscape_hex (c : Char) :
    IsEscape ('u' :: '\x7b' :: ((hex 1 c.toNat).toList ++ ['\x7d'])) c := by
  have hhex : (hex 1 c.toNat).toList = Nat.toDigits 16 c.toNat := by
    have hsome : 1 ≤ (Nat.toDigits 16 c.toNat).length := List.length_pos_iff.mpr Nat.toDigits_ne_nil
    rw [hex, String.toList_ofList, List.leftpad, Nat.sub_eq_zero_of_le hsome]
    rfl
  have hlength : (Nat.toDigits 16 c.toNat).length ≤ 6 := by
    rw [Nat.length_toDigits_le_iff (by decide) (by decide)]
    rcases c.valid with hlow | hhigh
    · exact Nat.lt_trans hlow (by decide)
    · exact Nat.lt_trans hhigh.2 (by decide)
  obtain ⟨ds, hds, hsame, hvalue⟩ :=
    @exists_isDigits_toDigits 16 (by decide) (by decide) c.toNat
  have hne : ds ≠ [] := by
    rintro rfl
    exact Nat.toDigits_ne_nil (List.eq_nil_of_length_eq_zero hsame.symm)
  have hfirst : (Nat.toDigits 16 c.toNat).head? ≠ some '_' := by
    intro hhead
    obtain ⟨d, hd, hscore⟩ := exists_of_mem_toDigits (by decide) _ _ (List.mem_of_mem_head? hhead)
    have hdigits : ∀ d < 16, '_' ≠ Nat.digitChar d := by decide
    exact hdigits d hd hscore
  have hescape := IsEscape.unicode hds hfirst hne (hsame ▸ hlength) (hvalue ▸ c.valid)
  rw [hvalue, Char.ofNat_toNat] at hescape
  rw [hhex]
  exact hescape

/-- An escaped character denotes the character, whatever stands behind it. -/
theorem denotes_escapeChar (c : Char) {body source : List Char} (h : Denotes body source) :
    Denotes (escapeChar c ++ body) (c :: source) := by
  unfold escapeChar
  split
  case h_7 _ hreturn _ _ hquote hslash =>
    split
    · exact .plain hslash hquote hreturn h
    · rw [List.append_assoc, List.append_assoc]
      have hescape := Denotes.escape (isEscape_hex c) h
      simpa using hescape
  all_goals exact .escape (.simple (by decide)) h

/-- **An escaped text denotes the text.** -/
theorem denotes_escape (cs : List Char) : Denotes (escape cs) cs := by
  induction cs with
  | nil => exact .nil
  | cons c cs ih => exact denotes_escapeChar c ih

/-- **The host language reads an escaped text as the text.** -/
theorem literalText?_escape (cs : List Char) : literalText? (escape cs) = some cs :=
  literalText?_of_denotes (denotes_escape cs)

end Stm8.Embed
