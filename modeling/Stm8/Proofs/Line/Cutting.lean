import Stm8.Proofs.Line.Parsing

/-!
# Commas outside of brackets

What stands behind the name of a command is cut at the commas outside of brackets, and `(`
and `[` count alike. Counting says which commas these are (`bracketDepth`), whether the
brackets pair up (`IsBalanced`), and what the operands are (`IsCut`). The text is cut while
the brackets are being counted, one character after another, to the same effect:

> `splitOperands_eq_ok_iff`: the slices are the pieces between the commas, in place.
> `exists_isCut_iff`: there are such pieces exactly if the brackets pair up.
> `operands_eq_error_iff`: a command without operands aside, nothing is read exactly if the
> brackets do not pair up, if there is nothing between two commas, or if there are more than
> three operands.
-/

namespace Stm8

open Stm8.Text

namespace Line

/-! ## Counting brackets -/

/-- How many more brackets the text opens than it closes. -/
def bracketDepth (cs : List Char) : Int :=
  (cs.countP isOpening : Int) - cs.countP isClosing

/-- Whether each closing bracket has an opening one in front of it, and the other way round. -/
structure IsBalanced (cs : List Char) : Prop where
  /-- No closing bracket lacks an opening one. -/
  opened : ∀ front, front <+: cs → 0 ≤ bracketDepth front
  /-- No opening bracket lacks a closing one. -/
  closed : bracketDepth cs = 0

/-- Whether there is a comma outside of brackets in the text. -/
def HasComma (cs : List Char) : Prop :=
  ∃ front behind, cs = front ++ ',' :: behind ∧ bracketDepth front = 0

/-- Whether the pieces are what stands between the commas outside of brackets. -/
structure IsCut (args : List Char) (pieces : List (List Char)) : Prop where
  /-- There is a piece, if only an empty one. -/
  nonempty : pieces ≠ []
  /-- The commas are between the pieces. -/
  joined : args = [','].intercalate pieces
  /-- The commas are outside of brackets. -/
  balanced : ∀ piece ∈ pieces, IsBalanced piece
  /-- Those in a piece are not. -/
  noComma : ∀ piece ∈ pieces, ¬HasComma piece

theorem bracketDepth_cons (c : Char) (cs : List Char) :
    bracketDepth (c :: cs) = depthStep c + bracketDepth cs := by
  have hneither : isOpening c = true → isClosing c = false := by
    unfold isOpening isClosing
    rw [Bool.or_eq_true, beq_iff_eq, beq_iff_eq]
    rintro (rfl | rfl) <;> rfl
  unfold bracketDepth depthStep
  rw [List.countP_cons, List.countP_cons]
  have hcount : ∀ (b : Bool) (n : Nat),
      ((n + if b = true then 1 else 0 : Nat) : Int) = n + if b = true then 1 else 0 := by
    intro b n
    cases b <;> rfl
  rw [hcount, hcount]
  cases hopen : isOpening c with
  | true =>
    simp only [hneither hopen, reduceIte, Bool.false_eq_true]
    omega
  | false =>
    cases isClosing c with
    | true =>
      simp only [reduceIte, Bool.false_eq_true]
      omega
    | false =>
      simp only [reduceIte, Bool.false_eq_true]
      omega

theorem bracketDepth_append (xs ys : List Char) :
    bracketDepth (xs ++ ys) = bracketDepth xs + bracketDepth ys := by
  unfold bracketDepth
  rw [List.countP_append, List.countP_append]
  omega

/-- A counter of 32 bits with a sign holds the depth at every place of a text of less than
2^31 characters. -/
theorem bracketDepth_bounds {args front : List Char} (hlength : args.length < 0x80000000)
    (h : front <+: args) :
    -0x80000000 < bracketDepth front ∧ bracketDepth front < 0x80000000 := by
  have hfront := h.length_le
  have hopening := @List.countP_le_length _ isOpening front
  have hclosing := @List.countP_le_length _ isClosing front
  unfold bracketDepth
  omega

/-! ## From one character to the next -/

/-- Whether no bracket is closed that is not open, if this many are open in front of the text. -/
def IsOpenedAt (depth : Int) (cs : List Char) : Prop :=
  ∀ front, front <+: cs → 0 ≤ depth + bracketDepth front

/-- Whether no comma is outside of brackets, if this many are open in front of the text. -/
def IsWholeAt (depth : Int) (cs : List Char) : Prop :=
  ∀ front behind, cs = front ++ ',' :: behind → depth + bracketDepth front ≠ 0

theorem isOpenedAt_cons_iff {depth : Int} {c : Char} {cs : List Char} :
    IsOpenedAt depth (c :: cs) ↔ 0 ≤ depth ∧ IsOpenedAt (depth + depthStep c) cs := by
  constructor
  · intro h
    refine ⟨by simpa [bracketDepth] using h [] List.nil_prefix, fun front hfront => ?_⟩
    have hall := h (c :: front) ((List.prefix_cons_inj c).mpr hfront)
    rwa [bracketDepth_cons, ← Int.add_assoc] at hall
  · rintro ⟨hdepth, h⟩ front hfront
    rcases List.prefix_cons_iff.mp hfront with rfl | ⟨tail, rfl, htail⟩
    · simpa [bracketDepth] using hdepth
    · rw [bracketDepth_cons, ← Int.add_assoc]
      exact h tail htail

theorem isWholeAt_cons_iff {depth : Int} {c : Char} {cs : List Char} :
    IsWholeAt depth (c :: cs) ↔ (c = ',' → depth ≠ 0) ∧ IsWholeAt (depth + depthStep c) cs := by
  constructor
  · intro h
    refine ⟨?_, fun front behind hcs => ?_⟩
    · rintro rfl
      simpa [bracketDepth] using h [] cs rfl
    · have hall := h (c :: front) behind (by rw [hcs, List.cons_append])
      rwa [bracketDepth_cons, ← Int.add_assoc] at hall
  · rintro ⟨hcomma, h⟩ front behind hcs
    cases front with
    | nil =>
      obtain ⟨rfl, -⟩ := List.cons.inj hcs
      simpa [bracketDepth] using hcomma rfl
    | cons d front =>
      obtain ⟨rfl, htail⟩ := List.cons.inj hcs
      rw [bracketDepth_cons, ← Int.add_assoc]
      exact h front behind htail

theorem isOpenedAt_zero_iff {cs : List Char} :
    IsOpenedAt 0 cs ↔ ∀ front, front <+: cs → 0 ≤ bracketDepth front := by
  simp only [IsOpenedAt, Int.zero_add]

theorem isWholeAt_zero_iff {cs : List Char} : IsWholeAt 0 cs ↔ ¬HasComma cs := by
  simp only [IsWholeAt, HasComma, Int.zero_add, not_exists, not_and]

theorem isOpenedAt_nil_iff {depth : Int} : IsOpenedAt depth [] ↔ 0 ≤ depth := by
  constructor
  · intro h
    simpa [bracketDepth] using h [] List.nil_prefix
  · intro h front hfront
    rw [List.prefix_nil.mp hfront]
    simpa [bracketDepth] using h

theorem not_isOpenedAt {depth : Int} (hdepth : depth < 0) (cs : List Char) :
    ¬IsOpenedAt depth cs := by
  intro h
  have hfront := h [] List.nil_prefix
  rw [bracketDepth, List.countP_nil, List.countP_nil] at hfront
  omega

theorem isWholeAt_nil (depth : Int) : IsWholeAt depth [] := by
  intro front behind h
  cases front <;> cases h

/-- Brackets are counted one after another. -/
theorem depthAfter?_eq_some_iff {depth after : Nat} {cs : List Char} :
    depthAfter? depth cs = some after ↔
      IsOpenedAt depth cs ∧ IsWholeAt depth cs ∧ (depth : Int) + bracketDepth cs = after := by
  induction cs generalizing depth with
  | nil =>
    have hopened : IsOpenedAt (depth : Int) [] := isOpenedAt_nil_iff.mpr (Int.natCast_nonneg depth)
    have hcast : depth = after ↔ (depth : Int) + bracketDepth [] = after := by
      rw [show bracketDepth [] = 0 from rfl, Int.add_zero, Int.natCast_inj]
    rw [depthAfter?, Option.some.injEq, hcast]
    exact ⟨fun h => ⟨hopened, isWholeAt_nil _, h⟩, fun h => h.2.2⟩
  | cons c cs ih =>
    have hdepth : (0 : Int) ≤ depth := Int.natCast_nonneg depth
    rw [isOpenedAt_cons_iff, isWholeAt_cons_iff, bracketDepth_cons, ← Int.add_assoc]
    cases isStep depth c with
    | inner next hnext hcomma hafter _ =>
      rw [hafter, ih, hnext]
      exact ⟨fun h => ⟨⟨hdepth, h.1⟩, ⟨hcomma, h.2.1⟩, h.2.2⟩, fun h => ⟨h.1.2, h.2.1.2, h.2.2⟩⟩
    | comma hcomma hzero hafter _ =>
      rw [hafter]
      simp [hcomma, hzero]
    | unopened hunder hafter _ =>
      rw [hafter]
      simp [not_isOpenedAt hunder cs]

/-- A text without cuts whose brackets pair up. -/
theorem depthAfter?_zero_iff {cs : List Char} :
    depthAfter? 0 cs = some 0 ↔ IsBalanced cs ∧ ¬HasComma cs := by
  rw [depthAfter?_eq_some_iff, Int.natCast_zero, isOpenedAt_zero_iff, isWholeAt_zero_iff,
    Int.zero_add]
  exact ⟨fun h => ⟨⟨h.1, h.2.2⟩, h.2.1⟩, fun h => ⟨h.1.opened, h.2, h.1.closed⟩⟩

/-! ## Cutting -/

/-- The counting comes to an end exactly if the brackets pair up. -/
theorem exists_splitAtCommas_iff {depth pos : Nat} {cs : List Char} :
    (∃ cut, splitAtCommas depth pos cs = .ok cut) ↔
      IsOpenedAt depth cs ∧ (depth : Int) + bracketDepth cs = 0 := by
  have hmap : ∀ {f : List Char × List Slice → List Char × List Slice}
      {x : Except Imbalance (List Char × List Slice)},
      (∃ cut, x.map f = .ok cut) ↔ ∃ cut, x = .ok cut := by
    intro f x
    cases x <;> simp [Except.map]
  induction cs generalizing depth pos with
  | nil =>
    rw [splitAtCommas, isOpenedAt_nil_iff]
    by_cases hzero : depth = 0 <;> simp [hzero, bracketDepth]
  | cons c cs ih =>
    have hdepth : (0 : Int) ≤ depth := Int.natCast_nonneg depth
    rw [isOpenedAt_cons_iff, bracketDepth_cons, ← Int.add_assoc]
    cases isStep depth c with
    | inner next hnext _ _ hsplit =>
      rw [hsplit]
      refine hmap.trans (ih.trans ?_)
      rw [hnext]
      exact ⟨fun h => ⟨⟨hdepth, h.1⟩, h.2⟩, fun h => ⟨h.1.2, h.2⟩⟩
    | comma hcomma hzero _ hsplit =>
      obtain rfl := hcomma
      obtain rfl := hzero
      rw [hsplit]
      refine hmap.trans (ih.trans ?_)
      exact ⟨fun h => ⟨⟨hdepth, h.1⟩, h.2⟩, fun h => ⟨h.1.2, h.2⟩⟩
    | unopened hunder _ hsplit =>
      rw [hsplit]
      simp [not_isOpenedAt hunder cs]

/-- The pieces, the first behind `start` bytes and the others each behind one more comma. -/
def slicesAt : Nat → List (List Char) → List Slice
  | _, [] => []
  | start, piece :: pieces => ⟨start, piece⟩ :: slicesAt (start + width piece + 1) pieces

theorem map_text_slicesAt (start : Nat) (pieces : List (List Char)) :
    (slicesAt start pieces).map Slice.text = pieces := by
  induction pieces generalizing start with
  | nil => rfl
  | cons piece pieces ih => rw [slicesAt, List.map_cons, ih]

theorem length_slicesAt (start : Nat) (pieces : List (List Char)) :
    (slicesAt start pieces).length = pieces.length := by
  rw [← List.length_map Slice.text, map_text_slicesAt]

theorem forall_mem_slicesAt_iff {P : List Char → Prop} (start : Nat) (pieces : List (List Char)) :
    (∀ s ∈ slicesAt start pieces, P s.text) ↔ ∀ piece ∈ pieces, P piece := by
  have hmap := @List.forall_mem_map _ _ Slice.text (slicesAt start pieces) P
  rw [map_text_slicesAt] at hmap
  exact hmap.symm

theorem intercalate_cons_append (c : Char) (piece : List Char) (pieces : List (List Char)) :
    [','].intercalate ((c :: piece) :: pieces) = c :: [','].intercalate (piece :: pieces) := by
  cases pieces with
  | nil => rw [List.intercalate_singleton, List.intercalate_singleton]
  | cons second pieces =>
    rw [List.intercalate_cons_cons, List.intercalate_cons_cons]
    rfl

/-- What is cut are pieces with the commas between them. -/
theorem exists_of_splitAtCommas {depth pos : Nat} {cs head : List Char} {rest : List Slice}
    (h : splitAtCommas depth pos cs = .ok (head, rest)) :
    ∃ pieces, cs = [','].intercalate (head :: pieces) ∧
      rest = slicesAt (pos + width head + 1) pieces ∧ depthAfter? depth head = some 0 ∧
      ∀ piece ∈ pieces, depthAfter? 0 piece = some 0 := by
  induction cs generalizing depth pos head rest with
  | nil =>
    rw [splitAtCommas] at h
    split at h
    · next hzero =>
      cases h
      exact ⟨[], rfl, rfl, by rw [depthAfter?, hzero], List.forall_mem_nil _⟩
    · cases h
  | cons c cs ih =>
    cases isStep depth c with
    | inner next _ _ hafter hsplit =>
      rw [hsplit] at h
      obtain ⟨⟨head', rest'⟩, hcut, heq⟩ := map_eq_ok.mp h
      obtain ⟨rfl, rfl⟩ := Prod.mk.inj heq
      obtain ⟨pieces, hcs, hrest, hhead, hpieces⟩ := ih hcut
      refine ⟨pieces, ?_, ?_, (hafter head').trans hhead, hpieces⟩
      · rw [intercalate_cons_append, ← hcs]
      · rw [width_cons, ← Nat.add_assoc]
        exact hrest
    | comma hcomma hzero _ hsplit =>
      rw [hsplit] at h
      obtain ⟨⟨head', rest'⟩, hcut, heq⟩ := map_eq_ok.mp h
      obtain ⟨rfl, rfl⟩ := Prod.mk.inj heq
      obtain ⟨pieces, hcs, hrest, hhead, hpieces⟩ := ih hcut
      refine ⟨head' :: pieces, ?_, ?_, ?_, List.forall_mem_cons.mpr ⟨hhead, hpieces⟩⟩
      · rw [hcs, hcomma, List.intercalate_cons_cons]
        rfl
      · rw [slicesAt, hrest]
        rfl
      · rw [depthAfter?, hzero]
    | unopened _ _ hsplit =>
      rw [hsplit] at h
      cases h

/-- Pieces with commas between them are cut at these commas. -/
theorem splitAtCommas_pieces {pieces : List (List Char)} {first : List Char}
    (h : ∀ piece ∈ first :: pieces, depthAfter? 0 piece = some 0) (pos : Nat) :
    splitAtCommas 0 pos ([','].intercalate (first :: pieces)) =
      .ok (first, slicesAt (pos + width first + 1) pieces) := by
  induction pieces generalizing first pos with
  | nil =>
    rw [List.intercalate_singleton, splitAtCommas_piece (h first List.mem_cons_self)]
    rfl
  | cons second pieces ih =>
    rw [List.forall_mem_cons] at h
    rw [List.intercalate_cons_cons, List.append_assoc, List.singleton_append,
      splitAtCommas_comma h.1, ih h.2]
    rfl

theorem isCut_cons_iff {args first : List Char} {pieces : List (List Char)} :
    IsCut args (first :: pieces) ↔ args = [','].intercalate (first :: pieces) ∧
      ∀ piece ∈ first :: pieces, depthAfter? 0 piece = some 0 := by
  constructor
  · intro h
    exact ⟨h.joined, fun piece hpiece =>
      depthAfter?_zero_iff.mpr ⟨h.balanced piece hpiece, h.noComma piece hpiece⟩⟩
  · rintro ⟨hjoined, h⟩
    exact ⟨List.cons_ne_nil first pieces, hjoined, fun piece hpiece =>
      (depthAfter?_zero_iff.mp (h piece hpiece)).1, fun piece hpiece =>
      (depthAfter?_zero_iff.mp (h piece hpiece)).2⟩

/-- **The slices are the pieces between the commas, in place.** -/
theorem splitOperands_eq_ok_iff {s : Slice} {slices : List Slice} :
    splitOperands s = .ok slices ↔
      ∃ pieces, IsCut s.text pieces ∧ slices = slicesAt s.start pieces := by
  constructor
  · intro h
    obtain ⟨⟨head, rest⟩, hcut, rfl⟩ := map_eq_ok.mp h
    obtain ⟨pieces, hcs, hrest, hhead, hpieces⟩ := exists_of_splitAtCommas hcut
    refine ⟨head :: pieces, ?_, by rw [slicesAt, hrest]⟩
    exact isCut_cons_iff.mpr ⟨hcs, List.forall_mem_cons.mpr ⟨hhead, hpieces⟩⟩
  · rintro ⟨pieces, hcut, rfl⟩
    obtain ⟨first, pieces, rfl⟩ := List.exists_cons_of_ne_nil hcut.nonempty
    obtain ⟨hjoined, hwhole⟩ := isCut_cons_iff.mp hcut
    rw [splitOperands, hjoined, splitAtCommas_pieces hwhole]
    rfl

/-- **There are pieces exactly if the brackets pair up.** -/
theorem exists_isCut_iff {args : List Char} : (∃ pieces, IsCut args pieces) ↔ IsBalanced args := by
  have hsplit : (∃ slices, splitOperands ⟨0, args⟩ = .ok slices) ↔ ∃ pieces, IsCut args pieces := by
    simp only [splitOperands_eq_ok_iff]
    exact ⟨fun ⟨_, pieces, h, _⟩ => ⟨pieces, h⟩, fun ⟨pieces, h⟩ => ⟨_, pieces, h, rfl⟩⟩
  have hcount := @exists_splitAtCommas_iff 0 0 args
  rw [Int.natCast_zero, Int.zero_add, isOpenedAt_zero_iff] at hcount
  rw [← hsplit]
  constructor
  · rintro ⟨slices, hslices⟩
    obtain ⟨cut, hcut, -⟩ := map_eq_ok.mp hslices
    obtain ⟨hopened, hclosed⟩ := hcount.mp ⟨cut, hcut⟩
    exact ⟨hopened, hclosed⟩
  · intro h
    obtain ⟨cut, hcut⟩ := hcount.mpr ⟨h.opened, h.closed⟩
    exact ⟨_, map_eq_ok.mpr ⟨cut, hcut, rfl⟩⟩

/-- There is one way to cut a text. -/
theorem IsCut.unique {args : List Char} {pieces pieces' : List (List Char)} (h : IsCut args pieces)
    (h' : IsCut args pieces') : pieces = pieces' := by
  have hslices := (splitOperands_eq_ok_iff (s := ⟨0, args⟩)).mpr ⟨pieces, h, rfl⟩
  have hslices' := (splitOperands_eq_ok_iff (s := ⟨0, args⟩)).mpr ⟨pieces', h', rfl⟩
  have htexts := congrArg (List.map Slice.text) (Except.ok.inj (hslices.symm.trans hslices'))
  rwa [map_text_slicesAt, map_text_slicesAt] at htexts

/-! ## Operands -/

/-- Operands are read exactly if there is something between the commas. -/
theorem operandParts_eq_ok_iff {number offset : Nat} {slices : List Slice} {parts : List Part} :
    operandParts number offset slices = .ok parts ↔
      (∀ s ∈ slices, trim s.text ≠ []) ∧
        parts = slices.map (fun s => part number offset s.trim) := by
  induction slices generalizing parts with
  | nil =>
    refine ⟨fun h => ⟨List.forall_mem_nil _, (Except.ok.inj h).symm⟩, ?_⟩
    rintro ⟨-, rfl⟩
    rfl
  | cons s slices ih =>
    have htext : s.trim.text = trim s.text := rfl
    rw [operandParts, htext, List.forall_mem_cons, List.map_cons]
    by_cases hempty : trim s.text = []
    · rw [hempty]
      simp
    · rw [if_neg (by simpa using hempty)]
      constructor
      · intro h
        obtain ⟨parts', hparts, hcons⟩ := bind_eq_ok.mp h
        obtain ⟨hslices, rfl⟩ := ih.mp hparts
        exact ⟨⟨hempty, hslices⟩, (Except.ok.inj hcons).symm⟩
      · rintro ⟨⟨-, hslices⟩, rfl⟩
        exact bind_eq_ok.mpr ⟨_, ih.mpr ⟨hslices, rfl⟩, rfl⟩

/-- Whether the operands of a command are written like this: with something between the commas,
and not too many. -/
structure AreOperands (args : List Char) (pieces : List (List Char)) : Prop where
  cut : IsCut args pieces
  filled : ∀ piece ∈ pieces, trim piece ≠ []
  few : pieces.length ≤ 3

/-- **What the operands of a command are.** -/
theorem operands_eq_ok_iff {number offset : Nat} {args : Slice} {parts : List Part} :
    operands number offset args = .ok parts ↔
      (trim args.text = [] ∧ parts = []) ∨
        trim args.text ≠ [] ∧ ∃ pieces, AreOperands args.text pieces ∧
          parts = (slicesAt args.start pieces).map fun s => part number offset s.trim := by
  unfold operands
  by_cases hblank : trim args.text = []
  · rw [if_pos (List.isEmpty_iff.mpr hblank)]
    refine ⟨fun h => Or.inl ⟨hblank, (Except.ok.inj h).symm⟩, ?_⟩
    rintro (⟨-, rfl⟩ | ⟨hsome, -⟩)
    · rfl
    · exact absurd hblank hsome
  · rw [if_neg fun hempty => hblank (List.isEmpty_iff.mp hempty)]
    cases hsplit : splitOperands args with
    | error imbalance =>
      constructor
      · intro h
        cases imbalance <;> cases h
      · rintro (⟨hnone, -⟩ | ⟨-, pieces, hpieces, -⟩)
        · exact absurd hnone hblank
        · have hok := splitOperands_eq_ok_iff.mpr ⟨pieces, hpieces.cut, rfl⟩
          rw [hsplit] at hok
          cases hok
    | ok slices =>
      obtain ⟨pieces, hcut, rfl⟩ := splitOperands_eq_ok_iff.mp hsplit
      have hfilled := forall_mem_slicesAt_iff (P := (trim · ≠ [])) args.start pieces
      constructor
      · intro h
        obtain ⟨ps, hps, h⟩ := bind_eq_ok.mp h
        obtain ⟨hsome, rfl⟩ := operandParts_eq_ok_iff.mp hps
        split at h
        · next hdrop =>
          obtain rfl := Except.ok.inj h
          rw [List.drop_eq_nil_iff, List.length_map, length_slicesAt] at hdrop
          exact Or.inr ⟨hblank, pieces, ⟨hcut, hfilled.mp hsome, hdrop⟩, rfl⟩
        · cases h
      · rintro (⟨hnone, -⟩ | ⟨-, pieces', hpieces, rfl⟩)
        · exact absurd hnone hblank
        · obtain rfl := hcut.unique hpieces.cut
          refine bind_eq_ok.mpr
            ⟨_, operandParts_eq_ok_iff.mpr ⟨hfilled.mpr hpieces.filled, rfl⟩, ?_⟩
          rw [List.drop_eq_nil_of_le (by rw [List.length_map, length_slicesAt]; exact hpieces.few)]
          rfl

/-- Whether what stands behind the name of a command is no list of operands: there is something,
but its brackets do not pair up, or there is nothing in front of a comma or behind one, or there
are more than three operands. -/
def IsMalformed (args : List Char) : Prop :=
  (∃ c ∈ args, isBlank c = false) ∧
    (¬IsBalanced args ∨ ∃ pieces, IsCut args pieces ∧
      ((∃ piece ∈ pieces, ∀ c ∈ piece, isBlank c = true) ∨ 3 < pieces.length))

/-- **When there are no operands to be read.** -/
theorem operands_eq_error_iff {number offset : Nat} {args : Slice} :
    (∃ problem, operands number offset args = .error problem) ↔ IsMalformed args.text := by
  have hsome : trim args.text ≠ [] ↔ ∃ c ∈ args.text, isBlank c = false := by
    rw [ne_eq, trim_eq_nil_iff]
    simp
  have hfails : (∃ problem, operands number offset args = .error problem) ↔
      ¬∃ parts, operands number offset args = .ok parts := by
    cases operands number offset args <;> simp
  rw [hfails]
  simp only [operands_eq_ok_iff]
  constructor
  · intro hnone
    have hargs : trim args.text ≠ [] := fun hblank => hnone ⟨[], Or.inl ⟨hblank, rfl⟩⟩
    refine ⟨hsome.mp hargs, ?_⟩
    by_cases hbalanced : IsBalanced args.text
    · obtain ⟨pieces, hcut⟩ := exists_isCut_iff.mpr hbalanced
      refine Or.inr ⟨pieces, hcut, ?_⟩
      by_cases hempty : ∃ piece ∈ pieces, ∀ c ∈ piece, isBlank c = true
      · exact Or.inl hempty
      · refine Or.inr (Nat.lt_of_not_le fun hfew => hnone ⟨_, Or.inr ⟨hargs, pieces, ?_, rfl⟩⟩)
        exact ⟨hcut, fun piece hpiece hblank =>
          hempty ⟨piece, hpiece, trim_eq_nil_iff.mp hblank⟩, hfew⟩
    · exact Or.inl hbalanced
  · rintro ⟨hargs, hfault⟩ ⟨parts, ⟨hblank, -⟩ | ⟨-, pieces, hpieces, -⟩⟩
    · exact hsome.mpr hargs hblank
    · rcases hfault with hbalanced | ⟨pieces', hcut, ⟨piece, hpiece, hblank⟩ | hmany⟩
      · exact hbalanced (exists_isCut_iff.mp ⟨pieces, hpieces.cut⟩)
      · obtain rfl := hcut.unique hpieces.cut
        exact hpieces.filled piece hpiece (trim_eq_nil_iff.mpr hblank)
      · obtain rfl := hcut.unique hpieces.cut
        exact absurd hpieces.few (Nat.not_le.mpr hmany)

end Line

end Stm8
