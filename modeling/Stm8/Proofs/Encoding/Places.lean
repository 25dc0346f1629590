import Stm8.Proofs.Encoding.Fitting
import Stm8.Proofs.Operand.Text

/-!
# What the place of an operand does to its encoding

The place of an operand is kept in the requests and problems that the operand leads to,
and nothing else depends on it. The same goes for a mark that the text of the operand does
not show. `IsMove` says of a function that it changes nothing more of an operand:

> `encode_move`: operands that were moved are encoded to the same bytes, requests and
> notes, with their places moved.

Two functions are like this. One moves all places (`Operand.mapSpan`), the other forgets
them together with the marks that do not show (`Operand.bare`):

> `resolve_bare`: bare operands select the same form, or have the same problem.
> `encode_bare`: they are encoded to the same bytes, requests and notes, places aside.
-/

namespace Stm8

/-! ## Other places -/

/-- The problem with its places moved. -/
def Problem.mapSpan (g : Span → Span) : Problem → Problem
  | unknownMnemonic mnemonic span => unknownMnemonic mnemonic (g span)
  | noMatch mnemonic operands span => noMatch mnemonic operands (g span)
  | outOfRange value least greatest span => outOfRange value least greatest (g span)
  | undefinedSymbol symbol span => undefinedSymbol symbol (g span)
  | duplicateLabel label span first => duplicateLabel label (g span) (g first)
  | branchOutOfRange symbol displacement greatest span =>
    branchOutOfRange symbol displacement greatest (g span)
  | malformed cause span => malformed cause (g span)
  | unreadable address length => unreadable address length
  | noEncoding subject cause => noEncoding subject cause

/-- The request with the place of its operand moved. -/
def Relocation.mapSpan (g : Span → Span) (r : Relocation) : Relocation :=
  { r with span := g r.span }

/-- The encoding with the places of its operands moved. -/
def Encoding.mapSpan (g : Span → Span) (e : Encoding) : Encoding :=
  { e with
    relocations := e.relocations.map (Relocation.mapSpan g)
    diagnostics := e.diagnostics.map (Problem.mapSpan g) }

/-- The operand in another place. -/
def Operand.mapSpan (g : Span → Span) (op : Operand) : Operand :=
  { op with span := g op.span }

/-! ## Without places -/

/-- The problem without its place. -/
def Problem.unplaced : Problem → Problem
  | unknownMnemonic mnemonic _ => unknownMnemonic mnemonic .nowhere
  | noMatch mnemonic operands _ => noMatch mnemonic operands .nowhere
  | outOfRange value least greatest _ => outOfRange value least greatest .nowhere
  | undefinedSymbol symbol _ => undefinedSymbol symbol .nowhere
  | duplicateLabel label _ _ => duplicateLabel label .nowhere .nowhere
  | branchOutOfRange symbol displacement greatest _ =>
    branchOutOfRange symbol displacement greatest .nowhere
  | malformed cause _ => malformed cause .nowhere
  | unreadable address length => unreadable address length
  | noEncoding subject cause => noEncoding subject cause

/-- The request without the place of its operand. -/
def Relocation.unplaced (r : Relocation) : Relocation :=
  { r with span := .nowhere }

/-- The encoding without the places of its operands. -/
def Encoding.unplaced (e : Encoding) : Encoding :=
  { e with
    relocations := e.relocations.map Relocation.unplaced
    diagnostics := e.diagnostics.map Problem.unplaced }

/-- The operand without its place, and marked only where its text shows the mark. -/
def Operand.bare (op : Operand) : Operand :=
  { kind := op.kind, value := op.shownValue }

theorem Problem.mapSpan_nowhere : Problem.mapSpan (fun _ => .nowhere) = unplaced := by
  funext p
  cases p <;> rfl

theorem Encoding.mapSpan_nowhere (e : Encoding) : e.mapSpan (fun _ => .nowhere) = e.unplaced := by
  unfold mapSpan unplaced
  rw [Problem.mapSpan_nowhere]
  rfl

/-- An operand that is read back differs from the one that was written in its place and in
marks that do not show. -/
theorem Operand.bare_shown (op : Operand) (span : Span) :
    ({ kind := op.kind, value := op.shownValue, span } : Operand).bare = op.bare := by
  unfold bare shownValue
  cases op.value with
  | none => rfl
  | some v =>
    simp only [Option.map_some, Value.isShortSymbol_markShort_and, Value.markShort_markShort,
      ← Bool.and_assoc, Bool.and_self]

/-- The text of an operand says as much as the bare operand. -/
theorem Operand.text_bare (op : Operand) : op.bare.text = op.text := by
  unfold bare shownValue text
  cases op.value with
  | none => rfl
  | some v =>
    simp only [Option.map_some, Value.isShortSymbol_markShort_and, Value.text_markShort,
      ← Bool.and_assoc, Bool.and_self]

/-! ## What no slot looks at -/

/-- Whether the function changes nothing of an operand that encoding looks at, and moves
its place. -/
structure Operand.IsMove (move : Operand → Operand) (g : Span → Span) : Prop where
  /-- The same slots take the operand. -/
  fits : ∀ op m, (move op).fits m = op.fits m
  /-- At most a mark is changed in the value. -/
  value : ∀ op, ∃ short, (move op).value = op.value.map (Value.markShort short)
  /-- The place is moved. -/
  span : ∀ op, (move op).span = g op.span

theorem Operand.isMove_mapSpan (g : Span → Span) : IsMove (mapSpan g) g where
  fits _ _ := rfl
  value op := by
    obtain ⟨kind, value, span⟩ := op
    rcases value with _ | (v | r)
    · exact ⟨false, rfl⟩
    · exact ⟨false, rfl⟩
    · exact ⟨r.short, rfl⟩
  span _ := rfl

/-- A slot does not look at places or at marks that do not show. -/
theorem Operand.isMove_bare : IsMove bare fun _ => .nowhere where
  fits op m := by
    obtain ⟨kind, value, span⟩ := op
    rcases value with _ | (v | r)
    · rfl
    · rfl
    · -- the mark counts only in categories that show it
      cases kind with
      | directMemory | offsetX | offsetY | pointerNear | pointerNearX | pointerNearY => rfl
      | _ => cases m <;> rfl
  value op := by
    obtain ⟨kind, value, span⟩ := op
    cases value with
    | none => exact ⟨false, rfl⟩
    | some v => exact ⟨_, rfl⟩
  span _ := rfl

section

variable {move : Operand → Operand} {g : Span → Span} (hmove : Operand.IsMove move g)

/-- The slot with its operand moved. -/
def Slot.map (move : Operand → Operand) (s : Slot) : Slot :=
  (s.1, move s.2)

theorem Form.slots_map (move : Operand → Operand) (f : Form) (ops : List Operand) :
    f.slots (ops.map move) = (f.slots ops).map (Slot.map move) := by
  rw [slots, slots, List.zip_map_right]
  rfl

include hmove

theorem Form.accepts_move (f : Form) (ops : List Operand) :
    f.accepts (ops.map move) = f.accepts ops := by
  have hslots : f.modes.zip (ops.map move) = (f.modes.zip ops).map (Slot.map move) :=
    f.slots_map move ops
  unfold accepts
  rw [List.length_map, hslots, List.all_map]
  congr 2
  funext s
  exact hmove.fits s.2 s.1

/-- The same form is selected. -/
theorem resolve_move {m : String} {ops : List Operand} {f : Form} (h : resolve m ops = .ok f) :
    resolve m (ops.map move) = .ok f := by
  have hsame : (fun f : Form => f.accepts (ops.map move)) = fun f => f.accepts ops :=
    funext fun f => f.accepts_move hmove ops
  rw [resolve, select_eq_ok_iff] at h ⊢
  rw [hsame]
  exact h

/-! ## Encoding -/

namespace Slot

theorem field_map (s : Slot) : (s.map move).field = s.field := by
  obtain ⟨short, hvalue⟩ := hmove.value s.2
  unfold field map
  rw [hvalue]
  rcases s.2.value with _ | (v | r) <;> rfl

theorem shift_map (s : Slot) : (s.map move).shift = s.shift := by
  obtain ⟨short, hvalue⟩ := hmove.value s.2
  unfold shift bit? map
  rw [hvalue]
  rcases s.2.value with _ | (v | r)
  · rfl
  · rfl
  · cases s.1 <;> rfl

theorem notes_map (s : Slot) : (s.map move).notes = s.notes.map (Problem.mapSpan g) := by
  obtain ⟨short, hvalue⟩ := hmove.value s.2
  unfold notes map
  rw [hvalue, hmove.span]
  rcases s.2.value with _ | (v | r)
  · rfl
  · dsimp only [Option.map_some, Value.markShort]
    rw [apply_ite (List.map (Problem.mapSpan g))]
    rfl
  · rfl

theorem requests_map (last start : Nat) (s : Slot) :
    (s.map move).requests last start = (s.requests last start).map (Relocation.mapSpan g) := by
  obtain ⟨short, hvalue⟩ := hmove.value s.2
  unfold requests map
  rw [hvalue, hmove.span]
  rcases s.2.value with _ | (v | r)
  · rfl
  · rfl
  · cases s.1 <;> rfl

theorem isFilled_map {s : Slot} (h : s.IsFilled) : (s.map move).IsFilled := by
  obtain ⟨short, hvalue⟩ := hmove.value s.2
  intro htakes
  show (move s.2).value.isSome = true
  rw [hvalue, Option.isSome_map]
  exact h htakes

end Slot

theorem requestsFrom_map (last start : Nat) (slots : List Slot) :
    requestsFrom last start (slots.map (Slot.map move)) =
      (requestsFrom last start slots).map (Relocation.mapSpan g) := by
  induction slots generalizing start with
  | nil => rfl
  | cons s slots ih =>
    rw [List.map_cons, requestsFrom, requestsFrom, s.requests_map hmove, s.field_map hmove, ih,
      List.map_append]

/-- Operands that were moved are encoded alike, with their places moved. -/
theorem Form.encode_move {f : Form} (hf : f ∈ all) {ops : List Operand} {e : Encoding}
    (he : f.encode ops = .ok e) : f.encode (ops.map move) = .ok (e.mapSpan g) := by
  obtain ⟨hcheck, hlayout⟩ := hasLayout_of_encode he
  have hcheck' : f.check (ops.map move) = .ok () := by
    rw [check_eq_ok_iff] at hcheck ⊢
    rw [List.length_map, slots_map, List.forall_mem_map]
    exact ⟨hcheck.1, fun s hs => ⟨Slot.isFilled_map hmove (hcheck.2 s hs).1,
      (hmove.fits s.2 s.1).trans (hcheck.2 s hs).2⟩⟩
  obtain ⟨e', he'⟩ := exists_encode (Nat.le_trans (length_le f hf) (by decide)) hcheck'
  have hlayout' := (hasLayout_of_encode he').2
  have hemission : f.emission (f.slots (ops.map move)) =
      (f.emission (f.slots ops)).map (Slot.map move) := by
    rw [slots_map, ← f.map_emission]
  rw [he']
  refine congrArg Except.ok (Encoding.eq_of_parts ?_ ?_ ?_)
  · rw [hlayout'.code, layout, hemission, slots_map, List.map_map, List.map_map]
    show _ = e.code.toList
    rw [hlayout.code, layout]
    simp only [Function.comp_def, Slot.shift_map hmove, Slot.field_map hmove]
  · rw [hlayout'.relocations, hemission, requestsFrom_map hmove, ← hlayout.relocations]
    rfl
  · rw [hlayout'.diagnostics, hemission, List.flatMap_map]
    show _ = e.diagnostics.map (Problem.mapSpan g)
    rw [hlayout.diagnostics, List.map_flatMap]
    simp only [Slot.notes_map hmove]

end

/-! ## Bare operands -/

theorem select_bare (m : String) (fs : List Form) (ops : List Operand) :
    select m fs (ops.map Operand.bare) = (select m fs ops).mapError Problem.unplaced := by
  have htexts : Operand.texts (ops.map Operand.bare) = Operand.texts ops := by
    unfold Operand.texts
    rw [List.map_map]
    exact congrArg (",".intercalate ·) (List.map_congr_left fun op _ => op.text_bare)
  have hspan : Operand.firstSpan (ops.map Operand.bare) = .nowhere := by
    cases ops <;> rfl
  unfold select
  simp only [Form.accepts_move Operand.isMove_bare, htexts, hspan]
  cases fs.find? (·.accepts ops) with
  | some f => rfl
  | none =>
    dsimp only
    split <;> rfl

/-- Bare operands select the same form, or have the same problem. -/
theorem resolve_bare (m : String) (ops : List Operand) :
    resolve m (ops.map Operand.bare) = (resolve m ops).mapError Problem.unplaced :=
  select_bare m _ ops

/-- Bare operands are encoded alike, places aside. -/
theorem Form.encode_bare {f : Form} (hf : f ∈ all) {ops : List Operand} {e : Encoding}
    (he : f.encode ops = .ok e) : f.encode (ops.map Operand.bare) = .ok e.unplaced := by
  rw [encode_move Operand.isMove_bare hf he, e.mapSpan_nowhere]

end Stm8
