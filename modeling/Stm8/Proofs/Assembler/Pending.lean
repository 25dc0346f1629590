import Stm8.Proofs.Assembler.Invariants
import Stm8.Proofs.Encoding.Pending

/-!
# The requests of an assembler are pending

What is put behind a program comes with requests that are pending on its own bytes, and
the requests that are there already are for bytes in front of it. So the requests of a
program stay pending as it grows:

> `isPending_of_reachable`: the requests of every program are for fields inside its code
> that do not overlap, and that hold filler unless they are bit numbers.
-/

namespace Stm8

open Relocation (ArePending)

/-- The requests of a cell are pending. -/
theorem Piece.arePending_ofCell (c : Cell) (v : Value) (span : Span) :
    ArePending (Piece.ofCell c v span).relocations (Piece.ofCell c v span).code := by
  cases v with
  | const v => exact ArePending.nil _
  | symbol s =>
    constructor
    · exact Piece.isClosed_ofCell c (.symbol s) span
    · exact List.pairwise_singleton _ _
    · intro r hr hkind
      obtain rfl := List.mem_singleton.mp hr
      show ((List.replicate c.size filler).drop 0).take c.size = _
      rw [List.drop_zero, List.take_of_length_le (Nat.le_of_eq List.length_replicate)]
      rfl

namespace Assembler

/-- Whether the requests of the program are pending. -/
def IsPending (a : Assembler) : Prop :=
  ArePending a.relocations a.code

/-- A piece with pending requests leaves the requests of the program pending. -/
theorem isPending_extend {a : Assembler} (ha : a.IsPending) {p : Piece}
    (hp : ArePending p.relocations p.code) : (a.extend p).IsPending :=
  ha.append hp

/-- Requests stay pending. -/
theorem isPreserved_isPending : IsPreserved IsPending where
  setBase := fun ha _ => ha
  defineExternal := fun ha _ _ => ha
  enableListing := fun ha => ha
  defineLabel := by
    intro a ha name span
    unfold defineLabel
    split
    · exact ha
    · exact ha
  data := by
    intro a ha bytes
    rw [data_eq]
    exact isPending_extend ha (ArePending.nil bytes)
  fill := by
    intro a ha c v span
    rw [fill_eq]
    exact isPending_extend ha (Piece.arePending_ofCell c v span)
  place := by
    intro a f ops e ha hf he
    rw [place_eq]
    exact isPending_extend ha (arePending_of_encode hf he)
  note := by
    intro a ha offset text
    unfold note
    split
    · exact ha
    · exact ha
  emitLine := fun ha => ha

/-- **The requests of every program are pending.** -/
theorem isPending_of_reachable {a : Assembler} (ha : a.Reachable) : a.IsPending :=
  isPreserved_isPending.of_reachable (ArePending.nil []) ha

end Assembler

end Stm8
