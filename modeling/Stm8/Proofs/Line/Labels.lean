import Mathlib.Data.List.TakeWhile
import Stm8.Proofs.Line.Parsing
import Stm8.Proofs.Value.Spelling

/-!
# Labels in front of a line

Labels are cut off the front of a line one after another. What is cut off is the name of a
symbol; and where such names were put in front of a line, each with a colon behind it, they
are found again:

> `isSymbolName_of_mem_labels`: the labels of a line are names of symbols.
> `splitLabels_name`: a name with a colon behind it is a label.
> `parse_labelText`: a line of nothing but labels is parsed to them.
-/

namespace Stm8

open Stm8.Text

namespace Line

theorem inWord_of_isSymbolName {name : List Char} (h : isSymbolName name = true) :
    ∀ c ∈ name, inWord c = true :=
  fun _ hc => inWord_of_isPlain (isPlain_of_isSymbolName h hc).1

/-! ## What labels are like -/

theorem isSymbolName_of_mem_splitLabels (s : Slice) :
    ∀ w ∈ (splitLabels s).1, isSymbolName w.text = true := by
  induction s using splitLabels.induct with
  | case1 s rest word after tail htail hname labels body hlabels hrest =>
    rw [splitLabels]
    split
    · next tail' htail' =>
      obtain rfl : tail = tail' := (List.cons.inj (htail.symm.trans htail')).2
      rw [if_pos hname, List.forall_mem_cons]
      exact ⟨hname, hrest⟩
    · next hother => exact absurd htail (hother tail)
  | case2 s rest word after tail htail hname =>
    rw [splitLabels]
    split
    · rw [if_neg hname]
      exact fun w hw => absurd hw List.not_mem_nil
    · exact fun w hw => absurd hw List.not_mem_nil
  | case3 s rest after hother =>
    rw [splitLabels]
    split
    · next tail htail => exact absurd htail (hother tail)
    · exact fun w hw => absurd hw List.not_mem_nil

/-- The labels of a line are names of symbols. -/
theorem isSymbolName_of_mem_labels {text : List Char} {number offset : Nat} {l : Line}
    (h : parse text number offset = .ok l) {p : Part} (hp : p ∈ l.labels) :
    isSymbolName p.text.toList = true := by
  have hlabels : l.labels =
      (splitLabels ⟨0, text.takeWhile (· != ';')⟩).1.map (part number offset) := by
    unfold parse at h
    dsimp only at h
    split at h
    · cases h
      rfl
    · obtain ⟨ops, -, h⟩ := bind_eq_ok.mp h
      cases h
      rfl
  rw [hlabels] at hp
  obtain ⟨w, hw, rfl⟩ := List.mem_map.mp hp
  show isSymbolName (String.ofList w.text).toList = true
  rw [String.toList_ofList]
  exact isSymbolName_of_mem_splitLabels _ w hw

/-! ## Labels that were put in front -/

section

variable {front name behind : List Char} (hfront : ∀ c ∈ front, isBlank c = true) (start : Nat)

include hfront

/-- A name with a colon behind it is a label. -/
theorem splitLabels_name (hname : isSymbolName name = true) :
    splitLabels ⟨start, front ++ name ++ ':' :: behind⟩ =
      let rest := splitLabels ⟨start + width front + width name + 1, behind⟩
      (⟨start + width front, name⟩ :: rest.1, rest.2) := by
  have hhead : (name ++ ':' :: behind).head?.all (fun c => !isBlank c) = true := by
    obtain ⟨c, cs, hcs⟩ := List.exists_cons_of_ne_nil (ne_nil_of_isSymbolName hname)
    have hc := (isPlain_of_isSymbolName hname (c := c) (by rw [hcs]; exact List.mem_cons_self)).1
    rw [hcs]
    simpa using isBlank_of_isPlain hc
  have hin := inWord_of_isSymbolName hname
  have hcolon : ¬ inWord ':' = true := by decide
  have hword : (name ++ ':' :: behind).takeWhile inWord = name := by
    rw [List.takeWhile_append_of_pos hin, List.takeWhile_cons_of_neg hcolon, List.append_nil]
  have htake : (⟨start + width front, name ++ ':' :: behind⟩ : Slice).takeWhile inWord =
      ⟨start + width front, name⟩ := by
    rw [Slice.takeWhile, hword]
  have hdrop : (⟨start + width front, name ++ ':' :: behind⟩ : Slice).dropWhile inWord =
      ⟨start + width front + width name, ':' :: behind⟩ := by
    rw [Slice.dropWhile, hword, List.dropWhile_append_of_pos hin,
      List.dropWhile_cons_of_neg hcolon]
  rw [splitLabels, List.append_assoc, trimStart_pad hfront hhead]
  dsimp only
  rw [hdrop]
  split
  · next tail htail =>
    obtain rfl : behind = tail := (List.cons.inj htail).2
    rw [htake, if_pos hname]
  · next hother => exact absurd rfl (hother behind)

/-- There is nothing in white space. -/
theorem splitLabels_blank : splitLabels ⟨start, front⟩ = ([], ⟨start + width front, []⟩) := by
  have htrim := @trimStart_pad front [] hfront rfl start
  rw [List.append_nil] at htrim
  rw [splitLabels, htrim]
  dsimp only
  split
  · next tail htail => cases htail
  · rfl

end

/-! ## Lines of labels -/

/-- The names, each with a colon behind it. -/
def labelText (names : List String) : List Char :=
  names.flatMap fun name => name.toList ++ [':']

theorem splitLabels_labelText {names : List String}
    (h : ∀ name ∈ names, isSymbolName name.toList = true) (start : Nat) :
    ∃ labels stop, splitLabels ⟨start, labelText names⟩ = (labels, ⟨stop, []⟩) ∧
      labels.map (fun w => String.ofList w.text) = names := by
  induction names generalizing start with
  | nil => exact ⟨[], start + width [], splitLabels_blank (List.forall_mem_nil _) start, rfl⟩
  | cons name names ih =>
    rw [List.forall_mem_cons] at h
    have htext : labelText (name :: names) = [] ++ name.toList ++ ':' :: labelText names := by
      simp [labelText]
    obtain ⟨labels, stop, hrest, hnames⟩ := ih h.2 (start + width [] + width name.toList + 1)
    refine ⟨⟨start + width [], name.toList⟩ :: labels, stop, ?_, ?_⟩
    · rw [htext, splitLabels_name (List.forall_mem_nil _) start h.1, hrest]
    · rw [List.map_cons, hnames, String.ofList_toList]

/-- There are only plain characters and colons among labels. -/
theorem ne_of_mem_labelText {names : List String}
    (h : ∀ name ∈ names, isSymbolName name.toList = true) {c sign : Char}
    (hc : c ∈ labelText names) (hplain : isPlain sign = false) (hcolon : ':' ≠ sign) :
    c ≠ sign := by
  obtain ⟨name, hname, hc⟩ := List.mem_flatMap.mp hc
  rcases List.mem_append.mp hc with hc | hc
  · exact ne_of_isPlain (isPlain_of_isSymbolName (h name hname) hc).1 hplain
  · rwa [List.mem_singleton.mp hc]

/-- A line of nothing but labels is parsed to them. -/
theorem parse_labelText {names : List String}
    (h : ∀ name ∈ names, isSymbolName name.toList = true) (number offset : Nat) :
    ∃ ps, parse (labelText names) number offset = .ok ⟨ps, none⟩ ∧ ps.map Part.text = names := by
  obtain ⟨labels, stop, hlabels, hnames⟩ := splitLabels_labelText h 0
  -- there is no comment
  have hcut : (labelText names).takeWhile (· != ';') = labelText names :=
    List.takeWhile_eq_self_iff.mpr fun c hc =>
      bne_iff_ne.mpr (ne_of_mem_labelText h hc rfl (by decide))
  refine ⟨labels.map (part number offset), ?_, ?_⟩
  · unfold parse
    rw [hcut, hlabels]
    rfl
  · rw [List.map_map, ← hnames]
    rfl

/-! ## Lines with a label and a command -/

/-- A line with a label and a command that has one operand. -/
theorem parse_labelled {label word operand : List Char} (hlabel : isSymbolName label = true)
    (hword : IsWord word) (hoperand : IsOperand operand) (number offset : Nat) :
    ∃ (p : Part) (c : Command), p.text = String.ofList label ∧
      c.name.text = String.ofList word ∧ c.operands.map Part.text = [String.ofList operand] ∧
      parse (label ++ ':' :: ' ' :: (word ++ ' ' :: operand)) number offset =
        .ok ⟨[p], some c⟩ := by
  have hplain : ∀ c ∈ label, isPlain c = true := fun c hc => (isPlain_of_isSymbolName hlabel hc).1
  let text := label ++ ':' :: ' ' :: (word ++ ' ' :: operand)
  -- there is no comment
  have hcut : text.takeWhile (· != ';') = text := by
    rw [List.takeWhile_eq_self_iff]
    intro c hc
    rw [bne_iff_ne]
    simp only [text, List.mem_append, List.mem_cons] at hc
    rcases hc with hc | rfl | rfl | hc | rfl | hc
    · exact ne_of_isPlain (hplain c hc) rfl
    · decide
    · decide
    · exact ne_of_isPlain (hword.plain c hc) rfl
    · decide
    · exact (hoperand.solid c hc).2
  have hlabels : splitLabels ⟨0, text⟩ =
      ([⟨0, label⟩], ⟨width label + 1 + width [' '], word ++ ' ' :: operand⟩) := by
    have hfirst := @splitLabels_name [] label (' ' :: (word ++ ' ' :: operand)) (by simp) 0 hlabel
    have hrest := @splitLabels_word [' '] word (' ' :: operand) (by decide) hword rfl
      (width label + 1)
    rw [List.nil_append, width_nil, Nat.zero_add, Nat.zero_add] at hfirst
    rw [hfirst, show ' ' :: (word ++ ' ' :: operand) = [' '] ++ (word ++ ' ' :: operand) from rfl,
      hrest]
  let start := width label + 1 + width [' ']
  obtain ⟨parts, htexts, hparts⟩ := @operands_spec number offset (start + width word) [' '] []
    (by decide) (by simp) [operand] (by simpa using hoperand)
  have hfew : parts.drop maxOperands = [] := by
    refine List.drop_eq_nil_of_le ?_
    rw [show parts.length = 1 by simpa using congrArg List.length htexts]
    decide
  have hend := @takeWhile_inWord word (' ' :: operand) hword.plain rfl
  have htake : (⟨start, word ++ ' ' :: operand⟩ : Slice).takeWhile inWord = ⟨start, word⟩ := by
    rw [Slice.takeWhile, hend.1]
  have hdrop : (⟨start, word ++ ' ' :: operand⟩ : Slice).dropWhile inWord =
      ⟨start + width word, ' ' :: operand⟩ := by
    rw [Slice.dropWhile, hend.1, hend.2]
  have hsome : (word ++ ' ' :: operand).isEmpty = false := by
    simp
  rw [hfew, List.intercalate_singleton, List.append_nil] at hparts
  refine ⟨part number offset ⟨0, label⟩, ⟨part number offset ⟨start, word⟩, parts,
    String.ofList (trim (word ++ ' ' :: operand))⟩, rfl, rfl, htexts, ?_⟩
  unfold parse
  rw [hcut, hlabels]
  show (if (word ++ ' ' :: operand).isEmpty = true then _ else _) = _
  rw [hsome, if_neg Bool.false_ne_true, hdrop]
  show (operands number offset ⟨start + width word, [' '] ++ operand⟩ >>= _) = _
  rw [hparts, htake]
  rfl

end Line

end Stm8
