import Stm8.Proofs.Text.Endings

/-!
# White space around a text

Operands are trimmed before they are read, and so is what stands in their brackets. A text
with white space around it (`IsPadded`) is trimmed to the same as the text alone:

> `IsPadded.trim_eq`: trimming does not see white space around a text.
> `isPadded_trim`: every text is what it is trimmed to with white space around it.
> `HasEnding.exists_trim`: an ending behind such a text stays where it is.
-/

namespace Stm8.Text

/-- Whether the text is `cs` with white space around it. -/
def IsPadded (cs text : List Char) : Prop :=
  ∃ front behind, (∀ c ∈ front, isBlank c = true) ∧ (∀ c ∈ behind, isBlank c = true) ∧
    text = front ++ cs ++ behind

/-- Whether the text is `cs` with one of the endings behind it, which may be spelled in either
case, and white space around everything. -/
def HasEnding (endings : List String) (cs text : List Char) : Prop :=
  ∃ ending ∈ endings, ∃ written body, sameLetters written ending.toList = true ∧
    IsPadded cs body ∧ IsPadded (body ++ written) text

/-- Whether the ending begins with a dot and consists of plain characters. -/
def isDotted (ending : String) : Bool :=
  ending.toList.head? == some '.' && ending.toList.all fun c => isPlain c.toLower

theorem isPadded_self (cs : List Char) : IsPadded cs cs :=
  ⟨[], [], by simp, by simp, by simp⟩

theorem IsPadded.trans {cs text text' : List Char} (h : IsPadded cs text)
    (h' : IsPadded text text') : IsPadded cs text' := by
  obtain ⟨front, behind, hfront, hbehind, rfl⟩ := h
  obtain ⟨front', behind', hfront', hbehind', rfl⟩ := h'
  refine ⟨front' ++ front, behind ++ behind', ?_, ?_, by simp⟩
  · exact List.forall_mem_append.mpr ⟨hfront', hfront⟩
  · exact List.forall_mem_append.mpr ⟨hbehind, hbehind'⟩

/-! ## One end -/

theorem trimEnd_append {behind : List Char} (h : ∀ c ∈ behind, isBlank c = true)
    (cs : List Char) : trimEnd (cs ++ behind) = trimEnd cs := by
  unfold trimEnd
  rw [List.reverse_append, List.dropWhile_append_of_pos (by simpa using h)]

theorem trimEnd_concat {c : Char} (h : isBlank c = false) (cs : List Char) :
    trimEnd (cs ++ [c]) = cs ++ [c] := by
  unfold trimEnd
  rw [List.reverse_append, List.reverse_singleton, List.singleton_append,
    List.dropWhile_cons_of_neg (by simp [h]), List.reverse_cons, List.reverse_reverse]

/-- Behind a character that stays, as much is trimmed as without what stands in front of it. -/
theorem trimEnd_append_cons {c : Char} (h : isBlank c = false) (front cs : List Char) :
    trimEnd (front ++ c :: cs) = front ++ c :: trimEnd cs := by
  unfold trimEnd
  rw [List.reverse_append, List.reverse_cons, List.append_assoc, List.dropWhile_append,
    List.singleton_append, List.dropWhile_cons_of_neg (by simp [h])]
  by_cases hempty : (cs.reverse.dropWhile isBlank).isEmpty = true
  · rw [if_pos hempty, List.isEmpty_iff.mp hempty, List.reverse_cons, List.reverse_reverse]
    rfl
  · rw [if_neg hempty, List.reverse_append, List.reverse_cons, List.reverse_reverse,
      List.append_assoc]
    rfl

theorem trimEnd_cons {c : Char} (h : isBlank c = false) (cs : List Char) :
    trimEnd (c :: cs) = c :: trimEnd cs :=
  trimEnd_append_cons h [] cs

/-- A text is what is left of it with white space behind it. -/
theorem exists_eq_trimEnd_append (cs : List Char) :
    ∃ behind, (∀ c ∈ behind, isBlank c = true) ∧ cs = trimEnd cs ++ behind := by
  refine ⟨(cs.reverse.takeWhile isBlank).reverse, ?_, ?_⟩
  · intro c hc
    exact List.all_eq_true.mp (@List.all_takeWhile _ isBlank cs.reverse) c (List.mem_reverse.mp hc)
  · unfold trimEnd
    rw [← List.reverse_append, List.takeWhile_append_dropWhile, List.reverse_reverse]

theorem isPadded_trimEnd (cs : List Char) : IsPadded (trimEnd cs) cs := by
  obtain ⟨behind, hbehind, hcs⟩ := exists_eq_trimEnd_append cs
  exact ⟨[], behind, by simp, hbehind, hcs⟩

theorem trimEnd_trimEnd (cs : List Char) : trimEnd (trimEnd cs) = trimEnd cs := by
  obtain ⟨behind, hbehind, hcs⟩ := exists_eq_trimEnd_append cs
  have htrim := trimEnd_append hbehind (trimEnd cs)
  rw [← hcs] at htrim
  exact htrim.symm

/-- A text is white space, or has a first character that is none. -/
theorem forall_isBlank_or_exists (text : List Char) :
    (∀ c ∈ text, isBlank c = true) ∨
      ∃ front c cs, (∀ d ∈ front, isBlank d = true) ∧ isBlank c = false ∧
        text = front ++ c :: cs := by
  induction text with
  | nil => exact Or.inl (by simp)
  | cons c cs ih =>
    cases hc : isBlank c with
    | false => exact Or.inr ⟨[], c, cs, by simp, hc, rfl⟩
    | true =>
      rcases ih with hall | ⟨front, d, ds, hfront, hd, rfl⟩
      · exact Or.inl (List.forall_mem_cons.mpr ⟨hc, hall⟩)
      · exact Or.inr ⟨c :: front, d, ds, List.forall_mem_cons.mpr ⟨hc, hfront⟩, hd, rfl⟩

theorem trimStart_append_cons {front : List Char} (hfront : ∀ d ∈ front, isBlank d = true)
    {c : Char} (hc : isBlank c = false) (cs : List Char) :
    trimStart (front ++ c :: cs) = c :: cs := by
  rw [trimStart, List.dropWhile_append_of_pos hfront, List.dropWhile_cons_of_neg (by simp [hc])]

theorem trimStart_eq_nil {cs : List Char} (h : ∀ c ∈ cs, isBlank c = true) :
    trimStart cs = [] := by
  rw [trimStart, ← List.append_nil cs, List.dropWhile_append_of_pos h, List.dropWhile_nil]

/-! ## Both ends -/

/-- A text is what it is trimmed to with white space around it. -/
theorem isPadded_trim (cs : List Char) : IsPadded (trim cs) cs := by
  obtain ⟨behind, hbehind, hstart⟩ := exists_eq_trimEnd_append (trimStart cs)
  refine ⟨cs.takeWhile isBlank, behind, ?_, hbehind, ?_⟩
  · exact List.all_eq_true.mp (@List.all_takeWhile _ isBlank cs)
  · rw [List.append_assoc]
    unfold trim
    rw [← hstart]
    exact List.takeWhile_append_dropWhile.symm

/-- Trimming does not see white space around a text. -/
theorem IsPadded.trim_eq {cs text : List Char} (h : IsPadded cs text) : trim text = trim cs := by
  obtain ⟨front, behind, hfront, hbehind, rfl⟩ := h
  unfold trim trimStart
  rw [List.append_assoc, List.dropWhile_append_of_pos hfront, List.dropWhile_append]
  by_cases hempty : (cs.dropWhile isBlank).isEmpty = true
  · -- there is nothing but white space
    rw [if_pos hempty, List.isEmpty_iff.mp hempty, ← List.append_nil behind,
      List.dropWhile_append_of_pos hbehind, List.dropWhile_nil]
  · rw [if_neg hempty, trimEnd_append hbehind]

theorem trim_trim (cs : List Char) : trim (trim cs) = trim cs :=
  (isPadded_trim cs).trim_eq.symm

theorem trimEnd_trim (cs : List Char) : trimEnd (trim cs) = trim cs :=
  trimEnd_trimEnd (trimStart cs)

/-- The ends can be trimmed in either order. -/
theorem trimStart_trimEnd (cs : List Char) : trimStart (trimEnd cs) = trim cs := by
  rcases forall_isBlank_or_exists cs with hall | ⟨front, c, rest, hfront, hc, rfl⟩
  · rw [trim, trimStart_eq_nil hall, ← List.nil_append cs, trimEnd_append hall]
    rfl
  · rw [trimEnd_append_cons hc, trim, trimStart_append_cons hfront hc,
      trimStart_append_cons hfront hc, trimEnd_cons hc]

theorem trim_cons {c : Char} (h : isBlank c = false) (cs : List Char) :
    trim (c :: cs) = c :: trimEnd cs := by
  unfold trim trimStart
  rw [List.dropWhile_cons_of_neg (by simp [h]), trimEnd_cons h]

/-- Only white space is trimmed to nothing. -/
theorem trim_eq_nil_iff {cs : List Char} : trim cs = [] ↔ ∀ c ∈ cs, isBlank c = true := by
  rcases forall_isBlank_or_exists cs with hall | ⟨front, c, rest, hfront, hc, rfl⟩
  · rw [trim, trimStart_eq_nil hall, trimEnd_nil]
    exact iff_of_true rfl hall
  · rw [trim, trimStart_append_cons hfront hc, trimEnd_cons hc]
    refine iff_of_false (List.cons_ne_nil c _) fun hall => ?_
    rw [hall c (List.mem_append_right front List.mem_cons_self)] at hc
    cases hc

/-- Text in brackets is not changed by trimming. -/
theorem trim_enclosed {opening closing : Char} (hopening : isBlank opening = false)
    (hclosing : isBlank closing = false) (inner : List Char) :
    trim (opening :: (inner ++ [closing])) = opening :: (inner ++ [closing]) := by
  rw [trim_cons hopening, trimEnd_concat hclosing]

/-! ## Endings -/

/-- An ending that is found was put there. -/
theorem exists_of_dropEnding? {ending cs body : List Char} (h : dropEnding? ending cs = some body) :
    ∃ written, cs = body ++ written ∧ sameLetters written ending = true := by
  unfold dropEnding? at h
  dsimp only at h
  split at h
  · next hsame =>
    rw [Bool.and_eq_true] at hsame
    obtain rfl := Option.some.inj h
    exact ⟨_, (List.take_append_drop _ _).symm, hsame.2⟩
  · cases h

theorem HasEnding.of_dropEnding? {endings : List String} {ending : String}
    (hending : ending ∈ endings) {cs text b body : List Char} (htext : IsPadded cs text)
    (h : Text.dropEnding? ending.toList cs = some body) (hbody : IsPadded b body) :
    HasEnding endings b text := by
  obtain ⟨written, rfl, hsame⟩ := exists_of_dropEnding? h
  exact ⟨ending, hending, written, body, hsame, hbody, htext⟩

/-- In either case an ending consists of the same kind of characters. -/
theorem isPlain_of_sameLetters {written ending : List Char}
    (h : sameLetters written ending = true) (hending : ∀ c ∈ ending, isPlain c.toLower = true) :
    ∀ c ∈ written, isPlain c = true := by
  intro c hc
  have hlower : c.toLower ∈ ending.map Char.toLower := by
    rw [← beq_iff_eq.mp h]
    exact List.mem_map_of_mem hc
  obtain ⟨d, hd, hdc⟩ := List.mem_map.mp hlower
  exact isPlain_of_toLower (hdc ▸ hending d hd)

theorem dot_mem_of_sameLetters {written ending : List Char}
    (h : sameLetters written ('.' :: ending) = true) : '.' ∈ written := by
  have hlower : '.' ∈ written.map Char.toLower := by
    rw [beq_iff_eq.mp h]
    exact List.mem_cons_self
  obtain ⟨c, hc, hdot⟩ := List.mem_map.mp hlower
  exact eq_of_toLower_eq hdot (by decide) ▸ hc

/-- Text that ends like this is not changed at the end by trimming. -/
theorem trimEnd_append_solid {written : List Char} (hne : written ≠ [])
    (h : ∀ c ∈ written, isBlank c = false) (cs : List Char) :
    trimEnd (cs ++ written) = cs ++ written := by
  obtain ⟨front, c, rfl⟩ := (written.eq_nil_or_concat).resolve_left hne
  rw [List.concat_eq_append] at h ⊢
  rw [← List.append_assoc]
  exact trimEnd_concat (h c (List.mem_append_right _ List.mem_cons_self)) _

/-- An ending behind a text stays where it is when the text is trimmed. -/
theorem IsPadded.trim_append {cs body written : List Char} (hbody : IsPadded cs body)
    (hcs : trim cs ≠ []) (hne : written ≠ []) (hsolid : ∀ c ∈ written, isBlank c = false) :
    ∃ behind, (∀ c ∈ behind, isBlank c = true) ∧
      trim (body ++ written) = trim cs ++ behind ++ written := by
  obtain ⟨behind, hbehind, hstart⟩ := exists_eq_trimEnd_append (trimStart body)
  have htrim : trimEnd (trimStart body) = trim cs := hbody.trim_eq
  rw [htrim] at hstart
  have hsome : ¬(body.dropWhile isBlank).isEmpty = true := by
    intro hempty
    refine hcs (List.append_eq_nil_iff.mp (hstart.symm.trans ?_)).1
    exact List.isEmpty_iff.mp hempty
  have hdrop : trimStart (body ++ written) = trimStart body ++ written := by
    unfold trimStart
    rw [List.dropWhile_append, if_neg hsome]
  exact ⟨behind, hbehind, by rw [trim, hdrop, trimEnd_append_solid hne hsolid, hstart]⟩

/-- What a text with an ending is trimmed to. -/
theorem HasEnding.exists_trim {endings : List String} {cs text : List Char}
    (h : HasEnding endings cs text) (hcs : trim cs ≠ [])
    (hendings : ∀ ending ∈ endings, isDotted ending = true) :
    ∃ ending ∈ endings, ∃ behind written, sameLetters written ending.toList = true ∧
      '.' ∈ written ∧ (∀ c ∈ behind, isBlank c = true) ∧
      trim text = trim cs ++ behind ++ written := by
  obtain ⟨ending, hending, written, body, hsame, hbody, htext⟩ := h
  have hdotted := hendings ending hending
  rw [isDotted, Bool.and_eq_true, beq_iff_eq, List.all_eq_true] at hdotted
  have hsolid : ∀ c ∈ written, isBlank c = false := fun c hc =>
    isBlank_of_isPlain (isPlain_of_sameLetters hsame hdotted.2 c hc)
  have hdot : '.' ∈ written := by
    obtain ⟨letters, hletters⟩ := List.head?_eq_some_iff.mp hdotted.1
    rw [hletters] at hsame
    exact dot_mem_of_sameLetters hsame
  obtain ⟨behind, hbehind, htrim⟩ := hbody.trim_append hcs (List.ne_nil_of_mem hdot) hsolid
  exact ⟨ending, hending, behind, written, hsame, hdot, hbehind, htext.trim_eq.trans htrim⟩

/-- The ending is found, and no other one is; what stands before it is the text. -/
theorem HasEnding.exists_dropEnding? {endings : List String} {cs text : List Char}
    (h : HasEnding endings cs text) (hcs : trim cs ≠ [])
    (hendings : ∀ ending ∈ endings, isDotted ending = true) :
    ∃ ending ∈ endings, ∃ body, trimEnd body = trim cs ∧
      Text.dropEnding? ending.toList (trim text) = some body ∧
      ∀ other, other ≠ [] →
        ending.toList.getLast?.map Char.toLower ≠ other.getLast?.map Char.toLower →
          Text.dropEnding? other (trim text) = none := by
  obtain ⟨ending, hending, behind, written, hsame, hdot, hbehind, htrim⟩ :=
    h.exists_trim hcs hendings
  have hne : trim cs ++ behind ≠ [] := fun hnil => hcs (List.append_eq_nil_iff.mp hnil).1
  rw [htrim]
  refine ⟨ending, hending, trim cs ++ behind, ?_, dropEnding?_append hne hsame,
    fun other hother hlast => ?_⟩
  · rw [trimEnd_append hbehind, trimEnd_trim]
  · refine dropEnding?_append_eq_none _ (List.ne_nil_of_mem hdot) hother ?_
    rw [← List.getLast?_map, beq_iff_eq.mp hsame, List.getLast?_map]
    exact hlast

end Stm8.Text
