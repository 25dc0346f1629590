import Stm8.Proofs.Assembler.Linking

/-!
# Chunks of a program

The bytes of an assembled program fall into chunks, one for each line. A symbol has the
address behind the chunks in front of its label.

> `exists_chunks`: a program that was assembled is the chunks of its lines, and each chunk
> is the piece of its line with the numbers of all symbols in it.
> `flatten_chunksFrom`: the pieces of a program, with all numbers in them, make up its
> chunks.
-/

namespace Stm8

open Relocation (patch)

/-- A line of a source text with the bytes that it was assembled to. -/
structure Chunk where
  /-- The line. -/
  line : Line
  /-- The bytes. -/
  bytes : List UInt8
  deriving DecidableEq, Repr, Inhabited

namespace Chunk

/-- The bytes of all chunks. -/
def code (chunks : List Chunk) : List UInt8 :=
  (chunks.map Chunk.bytes).flatten

/-- The number of bytes in front of the first line that defines the label. -/
def labelOffset? : List Chunk → String → Option Nat
  | [], _ => none
  | c :: chunks, name =>
    if c.line.labels.any (·.text == name) then some 0
    else (labelOffset? chunks name).map (c.bytes.length + ·)

/-- The value of a symbol: the address of its label, or else the last value that it was
given outside. -/
def symbolValue? (base : UInt32) (externals : List (String × UInt32)) (chunks : List Chunk)
    (name : String) : Option Int :=
  match labelOffset? chunks name with
  | some offset => some (base.toNat + offset)
  | none => (lastExternal? externals name).map fun v => (v.toNat : Int)

/-- A label stands in front of a byte of the program, or at its end. -/
theorem labelOffset?_le {chunks : List Chunk} {name : String} :
    ∀ {offset : Nat}, labelOffset? chunks name = some offset → offset ≤ (code chunks).length := by
  induction chunks with
  | nil =>
    intro offset h
    cases h
  | cons c chunks ih =>
    intro offset h
    have hlength : (code (c :: chunks)).length = c.bytes.length + (code chunks).length := by
      simp [code]
    rw [labelOffset?] at h
    split at h
    · injection h with h
      omega
    · obtain ⟨behind, hbehind, rfl⟩ := Option.map_eq_some_iff.mp h
      have := ih hbehind
      omega

/-- The value of a symbol is an address, or as far behind one as there is code. -/
theorem symbolValue?_bounds {base : UInt32} {externals : List (String × UInt32)}
    {chunks : List Chunk} {name : String} {target : Int}
    (h : symbolValue? base externals chunks name = some target) :
    0 ≤ target ∧ target < 0x100000000 + (code chunks).length := by
  have hbase := base.toNat_lt
  unfold symbolValue? at h
  split at h
  · next offset hoffset =>
    have hle := labelOffset?_le hoffset
    injection h with h
    omega
  · obtain ⟨v, -, rfl⟩ := Option.map_eq_some_iff.mp h
    have hv := v.toNat_lt
    omega

end Chunk

section

variable {base : UInt32} {value? : String → Option Int}

/-- The chunks of lines, the first of which puts its piece behind `start` bytes. -/
def chunksFrom (base : UInt32) (value? : String → Option Int) (start : Nat) :
    List Entry → List Chunk
  | [] => []
  | (line, piece) :: entries =>
    ⟨line, patch base value? start piece.relocations piece.code⟩ ::
      chunksFrom base value? (start + piece.code.length) entries

theorem map_line_chunksFrom {start : Nat} {entries : List Entry} :
    (chunksFrom base value? start entries).map Chunk.line = entries.map (·.1) := by
  induction entries generalizing start with
  | nil => rfl
  | cons entry entries ih => rw [chunksFrom, List.map_cons, List.map_cons, ih]

/-- The numbers are put into one piece after another. -/
theorem flatten_chunksFrom {start : Nat} {entries : List Entry}
    (h : ∀ entry ∈ entries, entry.2.IsClosed) :
    patch base value? start (Piece.concat (entries.map (·.2))).relocations
        (Piece.concat (entries.map (·.2))).code =
      Chunk.code (chunksFrom base value? start entries) := by
  induction entries generalizing start with
  | nil => rfl
  | cons entry entries ih =>
    rw [List.forall_mem_cons] at h
    have hlength : (patch base value? start entry.2.relocations entry.2.code).length =
        entry.2.code.length := Relocation.length_patch h.1
    have hbehind := @Relocation.patch_append_right base value? start
      (Piece.concat (entries.map (·.2))).relocations
      (patch base value? start entry.2.relocations entry.2.code)
      (Piece.concat (entries.map (·.2))).code
    rw [hlength] at hbehind
    show patch base value? start (entry.2.relocations ++ _) (entry.2.code ++ _) = _
    rw [Relocation.patch_append, Relocation.patch_append_left _ h.1, hbehind, ih h.2]
    rfl

/-- Chunks are as long as their pieces. -/
theorem length_chunksFrom {start : Nat} {entries : List Entry}
    (h : ∀ entry ∈ entries, entry.2.IsClosed) :
    (Chunk.code (chunksFrom base value? start entries)).length =
      (Piece.concat (entries.map (·.2))).code.length := by
  rw [← flatten_chunksFrom h, Relocation.length_patch]
  refine Piece.isClosed_concat fun p hp => ?_
  obtain ⟨entry, hentry, rfl⟩ := List.mem_map.mp hp
  exact h entry hentry

/-- The offsets of labels among chunks are those among pieces. -/
theorem labelOffset?_chunksFrom {start : Nat} {entries : List Entry}
    (h : ∀ entry ∈ entries, entry.2.IsClosed) (name : String) (offset : Nat) :
    (Chunk.labelOffset? (chunksFrom base value? start entries) name).map (offset + ·) =
      labelOffsetFrom? offset entries name := by
  induction entries generalizing start offset with
  | nil => rfl
  | cons entry entries ih =>
    rw [List.forall_mem_cons] at h
    obtain ⟨line, piece⟩ := entry
    have hlength : (patch base value? start piece.relocations piece.code).length =
        piece.code.length := Relocation.length_patch h.1
    rw [chunksFrom, Chunk.labelOffset?, labelOffsetFrom?]
    dsimp only
    cases line.labels.any (·.text == name) with
    | true => rfl
    | false =>
      rw [hlength, if_neg Bool.false_ne_true, if_neg Bool.false_ne_true, Option.map_map,
        ← ih h.2]
      exact congrFun (congrArg Option.map (funext fun n => (Nat.add_assoc _ _ n).symm)) _

/-- Where a chunk comes from. -/
theorem exists_of_chunksFrom {start : Nat} {entries : List Entry} {front behind : List Chunk}
    {c : Chunk} (h : chunksFrom base value? start entries = front ++ c :: behind) :
    ∃ front' piece behind', entries = front' ++ (c.line, piece) :: behind' ∧
      front = chunksFrom base value? start front' ∧
      c.bytes = patch base value? (start + (Piece.concat (front'.map (·.2))).code.length)
        piece.relocations piece.code := by
  induction entries generalizing start front with
  | nil => exact absurd (List.append_eq_nil_iff.mp h.symm).2 (List.cons_ne_nil c behind)
  | cons entry entries ih =>
    obtain ⟨line, piece⟩ := entry
    cases front with
    | nil =>
      obtain ⟨rfl, rfl⟩ := List.cons.inj h
      exact ⟨[], piece, entries, rfl, rfl, rfl⟩
    | cons first front =>
      obtain ⟨rfl, hrest⟩ := List.cons.inj h
      obtain ⟨front', piece', behind', hentries, hfront, hbytes⟩ := ih hrest
      refine ⟨(line, piece) :: front', piece', behind', by rw [hentries]; rfl,
        by rw [hfront]; rfl, ?_⟩
      rw [hbytes, Nat.add_assoc, ← List.length_append]
      rfl

/-- A program that was assembled is the chunks of its lines. -/
theorem exists_chunks {source : String} {externals : List (String × UInt32)}
    {bytes : List UInt8} (h : assemble source base externals = .ok bytes) :
    ∃ chunks, Line.parseAll 0 0 (Assembler.splitLines source.toList) =
        .ok (chunks.map Chunk.line) ∧
      bytes = Chunk.code chunks ∧
      ∀ front c behind, chunks = front ++ c :: behind →
        ∃ piece, Piece.ofLine c.line = .ok piece ∧ piece.diagnostics = [] ∧
          (∀ r ∈ piece.relocations, ((r.shift (Chunk.code front).length).number? base
            (Chunk.symbolValue? base externals chunks)).isSome = true) ∧
          c.bytes = patch base (Chunk.symbolValue? base externals chunks)
            (Chunk.code front).length piece.relocations piece.code := by
  obtain ⟨entries, hlines, hassembly⟩ := exists_isAssembly h
  have hclosed : ∀ entry ∈ entries, entry.2.IsClosed := fun entry hentry =>
    Piece.isClosed_ofLine (hassembly.pieces entry hentry)
  -- symbols have the same values whether labels are looked for in pieces or in chunks
  let value? := entryValue? base externals entries
  let chunks := chunksFrom base value? 0 entries
  have hvalue : Chunk.symbolValue? base externals chunks = value? := by
    funext name
    have hoffset : Chunk.labelOffset? chunks name = labelOffsetFrom? 0 entries name := by
      rw [← @labelOffset?_chunksFrom base value? 0 entries hclosed name 0]
      cases Chunk.labelOffset? chunks name with
      | none => rfl
      | some offset => exact congrArg some (Nat.zero_add offset).symm
    show _ = entryValue? base externals entries name
    rw [Chunk.symbolValue?, hoffset]
    rfl
  refine ⟨chunks, ?_, ?_, ?_⟩
  · rw [hlines, map_line_chunksFrom]
  · rw [← flatten_chunksFrom hclosed]
    exact hassembly.bytes
  · intro front c behind hsplit
    obtain ⟨front', piece, behind', rfl, rfl, hbytes⟩ := exists_of_chunksFrom hsplit
    rw [List.forall_mem_append, List.forall_mem_cons] at hclosed
    have hpiece := hassembly.pieces (c.line, piece)
      (List.mem_append_right _ List.mem_cons_self)
    -- what holds of all requests holds of those of one piece
    have hconcat : Piece.concat ((front' ++ (c.line, piece) :: behind').map (·.2)) =
        (Piece.concat (front'.map (·.2))).append
          (piece.append (Piece.concat (behind'.map (·.2)))) := by
      rw [List.map_append, Piece.concat_append]
      rfl
    have hdiagnostics := hassembly.diagnostics
    have hnumbers := hassembly.numbers
    rw [hconcat] at hdiagnostics hnumbers
    rw [hvalue, length_chunksFrom hclosed.1]
    rw [Nat.zero_add] at hbytes
    refine ⟨piece, hpiece, ?_, ?_, hbytes⟩
    · exact (List.append_eq_nil_iff.mp (List.append_eq_nil_iff.mp hdiagnostics).2).1
    · intro r hr
      exact hnumbers _ (List.mem_append_right _
        (List.mem_map_of_mem (List.mem_append_left _ hr)))

end

end Stm8
