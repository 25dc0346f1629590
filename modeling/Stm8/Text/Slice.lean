import Stm8.Text.Blank
import Stm8.Text.Width

/-!
# Slices

A `Slice` is a part of a text together with the number of bytes before it. The
operations below cut slices out of slices and keep that number right: if a text
is `pre ++ s.text ++ post` with `s.start = width pre`, the same holds of every
slice that is cut out of `s`.
-/

namespace Stm8.Text

/-- A part of a text. -/
structure Slice where
  /-- The bytes before the part. -/
  start : Nat
  /-- The characters of the part. -/
  text : List Char
  deriving DecidableEq, Repr, Inhabited

/-- Whether `s` is a part of `whole`, where it says that it is. -/
def Slice.IsPartOf (s : Slice) (whole : List Char) : Prop :=
  ∃ pre post, whole = pre ++ s.text ++ post ∧ s.start = width pre

namespace Slice

/-- The longest part in front whose characters satisfy `p`. -/
def takeWhile (p : Char → Bool) (s : Slice) : Slice :=
  ⟨s.start, s.text.takeWhile p⟩

/-- What follows the longest part in front whose characters satisfy `p`. -/
def dropWhile (p : Char → Bool) (s : Slice) : Slice :=
  ⟨s.start + width (s.text.takeWhile p), s.text.dropWhile p⟩

/-- The slice without leading white space. -/
def trimStart (s : Slice) : Slice :=
  s.dropWhile isBlank

/-- The slice without white space at either end. -/
def trim (s : Slice) : Slice :=
  ⟨s.trimStart.start, trimEnd s.trimStart.text⟩

theorem takeWhile_isPartOf {s : Slice} {whole : List Char} (p : Char → Bool)
    (h : s.IsPartOf whole) : (s.takeWhile p).IsPartOf whole := by
  obtain ⟨pre, post, rfl, hs⟩ := h
  refine ⟨pre, s.text.dropWhile p ++ post, ?_, hs⟩
  simp only [takeWhile, List.append_assoc]
  rw [← List.append_assoc (s.text.takeWhile p), List.takeWhile_append_dropWhile]

theorem dropWhile_isPartOf {s : Slice} {whole : List Char} (p : Char → Bool)
    (h : s.IsPartOf whole) : (s.dropWhile p).IsPartOf whole := by
  obtain ⟨pre, post, rfl, hs⟩ := h
  refine ⟨pre ++ s.text.takeWhile p, post, ?_, by simp [dropWhile, hs]⟩
  simp only [dropWhile, List.append_assoc]
  rw [← List.append_assoc (s.text.takeWhile p), List.takeWhile_append_dropWhile]

end Slice

end Stm8.Text
