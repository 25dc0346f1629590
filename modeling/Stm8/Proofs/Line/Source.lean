import Stm8.Proofs.Assembler.Running
import Stm8.Proofs.Text.Endings

/-!
# Lines that were joined

A source text that was joined from lines falls into the same lines:

> `splitLines_append`: each line but the last has a line break at its end.
> `parseAll_intercalate`: if each line can be parsed wherever it stands, so can the text.
-/

namespace Stm8

namespace Assembler

/-- Whether the text can be a line: something without line breaks. -/
structure IsLine (cs : List Char) : Prop where
  nonempty : cs ≠ []
  solid : ∀ c ∈ cs, c ≠ '\n' ∧ c ≠ '\r'

theorem splitLines_cons {c : Char} (hc : c ≠ '\n') {cs line : List Char}
    {lines : List (List Char)} (h : splitLines cs = line :: lines) :
    splitLines (c :: cs) = (c :: line) :: lines := by
  rw [splitLines, if_neg (by simpa using hc), h]

/-- A line goes up to its line break. -/
theorem splitLines_append {cs : List Char} (h : '\n' ∉ cs) (rest : List Char) :
    splitLines (cs ++ '\n' :: rest) = (cs ++ ['\n']) :: splitLines rest := by
  induction cs with
  | nil => rfl
  | cons c cs ih =>
    rw [List.mem_cons, not_or] at h
    exact splitLines_cons (Ne.symm h.1) (ih h.2)

/-- Text behind a line break begins a line of its own. -/
theorem splitLines_break (cs rest : List Char) :
    splitLines (cs ++ '\n' :: rest) = splitLines (cs ++ ['\n']) ++ splitLines rest := by
  have hne : ∀ cs : List Char, cs ≠ [] → splitLines cs ≠ [] := by
    intro cs hcs
    cases cs with
    | nil => exact absurd rfl hcs
    | cons c cs =>
      rw [splitLines]
      split
      · exact List.cons_ne_nil _ _
      · split <;> exact List.cons_ne_nil _ _
  induction cs with
  | nil => rfl
  | cons c cs ih =>
    rw [List.cons_append, List.cons_append, splitLines, splitLines, ih]
    by_cases hc : (c == '\n') = true
    · rw [if_pos hc, if_pos hc, List.cons_append]
    · rw [if_neg hc, if_neg hc]
      cases hfirst : splitLines (cs ++ ['\n']) with
      | nil => exact absurd hfirst (hne _ (by simp))
      | cons line lines => rfl

/-- The last line goes up to the end. -/
theorem splitLines_last {cs : List Char} (hne : cs ≠ []) (h : '\n' ∉ cs) :
    splitLines cs = [cs] := by
  induction cs with
  | nil => exact absurd rfl hne
  | cons c cs ih =>
    rw [List.mem_cons, not_or] at h
    cases cs with
    | nil => rw [splitLines, if_neg (by simpa using Ne.symm h.1), splitLines]
    | cons d ds => exact splitLines_cons (Ne.symm h.1) (ih (List.cons_ne_nil d ds) h.2)

theorem IsLine.notMem {cs : List Char} (h : IsLine cs) : '\n' ∉ cs :=
  fun hc => (h.solid '\n' hc).1 rfl

theorem splitLines_of_isLine {cs : List Char} (h : IsLine cs) : splitLines cs = [cs] :=
  splitLines_last h.nonempty h.notMem

/-- A text is its last line, or a line with a line break and the text behind it. -/
theorem lines_induction {P : List Char → Prop} (nil : P [])
    (last : ∀ cs, cs ≠ [] → '\n' ∉ cs → P cs)
    (line : ∀ cs rest, '\n' ∉ cs → P rest → P (cs ++ '\n' :: rest)) : ∀ cs, P cs := by
  intro cs
  induction hlength : cs.length using Nat.strongRecOn generalizing cs with
  | ind n ih =>
    by_cases hbreak : '\n' ∈ cs
    · obtain ⟨first, rest, rfl, hfirst⟩ := List.eq_append_cons_of_mem hbreak
      rw [List.length_append, List.length_cons] at hlength
      exact line first rest hfirst (ih rest.length (by omega) rest rfl)
    · by_cases hne : cs = []
      · rw [hne]
        exact nil
      · exact last cs hne hbreak

/-- Line breaks are cut off the end of a line. -/
theorem withoutBreak_append {cs breaks : List Char} (h : ∀ c ∈ cs, c ≠ '\n' ∧ c ≠ '\r')
    (hbreaks : ∀ c ∈ breaks, c = '\n' ∨ c = '\r') : withoutBreak (cs ++ breaks) = cs := by
  unfold withoutBreak
  rw [List.reverse_append, List.dropWhile_append_of_pos, Text.dropWhile_eq_self,
    List.reverse_reverse]
  · intro c hc
    have hc := h c (List.mem_reverse.mp hc)
    simp [hc.1, hc.2]
  · intro c hc
    simpa using hbreaks c (List.mem_reverse.mp hc)

theorem withoutBreak_eq_self {cs : List Char} (h : ∀ c ∈ cs, c ≠ '\n' ∧ c ≠ '\r') :
    withoutBreak cs = cs := by
  have hself := withoutBreak_append h (List.forall_mem_nil _)
  rwa [List.append_nil] at hself

/-- Lines that can be parsed wherever they stand can be parsed joined. -/
theorem parseAll_intercalate {α : Type} {text : α → List Char} {P : α → Entry → Prop}
    {items : List α} (hlines : ∀ item ∈ items, IsLine (text item))
    (hparse : ∀ item ∈ items, ∀ number offset, ∃ entry : Entry,
      Line.parse (text item) number offset = .ok entry.1 ∧ P item entry) (number offset : Nat) :
    ∃ rows : List (α × Entry), rows.map (·.1) = items ∧
      Line.parseAll number offset (splitLines (['\n'].intercalate (items.map text))) =
        .ok (rows.map (·.2.1)) ∧
      ∀ row ∈ rows, P row.1 row.2 := by
  induction items generalizing number offset with
  | nil => exact ⟨[], rfl, rfl, by simp⟩
  | cons item items ih =>
    rw [List.forall_mem_cons] at hlines hparse
    obtain ⟨entry, hentry, hP⟩ := hparse.1 (number + 1) offset
    -- the line, with or without a line break, is the same text
    have hline : ∃ line rest, withoutBreak line = text item ∧
        splitLines (['\n'].intercalate ((item :: items).map text)) = line :: rest ∧
        rest = splitLines (['\n'].intercalate (items.map text)) := by
      cases items with
      | nil =>
        refine ⟨text item, [], withoutBreak_eq_self hlines.1.solid, ?_, rfl⟩
        rw [List.map_singleton, List.intercalate_singleton]
        exact splitLines_of_isLine hlines.1
      | cons next items =>
        refine ⟨text item ++ ['\n'], _,
          withoutBreak_append hlines.1.solid (List.forall_mem_singleton.mpr (Or.inl rfl)), ?_, rfl⟩
        rw [List.map_cons, List.map_cons, List.intercalate_cons_cons, List.append_assoc,
          List.singleton_append]
        exact splitLines_append hlines.1.notMem _
    -- the other lines are numbered on from this one
    obtain ⟨line, rest, htext, hsplit, rfl⟩ := hline
    obtain ⟨rows, hitems, hrows, hall⟩ :=
      ih hlines.2 hparse.2 (number + 1) (offset + Text.width line)
    refine ⟨(item, entry) :: rows, by rw [List.map_cons, hitems], ?_, ?_⟩
    · rw [hsplit, Line.parseAll, htext, hentry, ok_bind, hrows]
      rfl
    · rw [List.forall_mem_cons]
      exact ⟨hP, hall⟩

end Assembler

end Stm8
