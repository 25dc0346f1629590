import Mathlib.Data.List.Basic
import Stm8.Proofs.Assembler.Bounds
import Stm8.Proofs.Instruction.ReadBack
import Stm8.Proofs.Program.Chunks

/-!
# What an assembled program does

Every instruction of a source text is found again in the bytes that the text is assembled
to: at its own place, in its own bytes, and with the operands that were written.

> `decode_of_assemble`: the bytes are the chunks of the lines, and the chunk of an
> instruction is decoded to the form that its operands select, with their values.
-/

namespace Stm8

/-- The whole program is the front, one chunk, and the rest. -/
theorem Chunk.code_append (front behind : List Chunk) (c : Chunk) :
    code (front ++ c :: behind) = code front ++ c.bytes ++ code behind := by
  simp [code]

/-- The sums for the operands of a program that was read do not come near to wrapping
around to small numbers. -/
theorem isTame_of_readOperands {base : UInt32} {externals : List (String × UInt32)}
    {chunks : List Chunk} (hlength : (Chunk.code chunks).length < 2 ^ 32) {parts : List Part}
    {ops : List Operand} (h : readOperands parts = .ok ops) :
    ∀ op ∈ ops, op.IsTame (Chunk.symbolValue? base externals chunks) := by
  intro op hop r target hv htarget
  have haddend := Quantity.fits_iff.mp (isBounded_of_readOperands h op hop (.symbol r) hv)
  obtain ⟨hleast, hgreatest⟩ := Chunk.symbolValue?_bounds htarget
  omega

/-- **What was assembled is decoded again.** The bytes of a program are the chunks of its
lines in order. Only a line without a command has no bytes. At the address of the chunk
of an instruction exactly that chunk is decoded, to the first form of the table with the
opcode of the form that the operands select, with the bit number in it. Each slot says
what was written: its register, its bit number, the value of its operand modulo the size
of its field, its displacement, or, where a symbol was written, that the branch leads to
it. -/
theorem decode_of_assemble {source : String} {base : UInt32}
    {externals : List (String × UInt32)} {bytes : List UInt8}
    (h : assemble source base externals = .ok bytes) (hlength : bytes.length < 2 ^ 32) :
    ∃ chunks, Line.parseAll 0 0 (Assembler.splitLines source.toList) =
        .ok (chunks.map Chunk.line) ∧
      bytes = Chunk.code chunks ∧
      ∀ front c behind, chunks = front ++ c :: behind →
        (c.line.command = none → c.bytes = []) ∧
        ∀ command, c.line.command = some command →
          c.bytes ≠ [] ∧
          (command.isDirective = false →
            ∃ ops f i, readOperands command.operands = .ok ops ∧
              resolve command.name.text ops = .ok f ∧
              decode (Region.source ⟨base, bytes⟩)
                (base + UInt32.ofNat (Chunk.code front).length) = .ok i ∧
              i.bytes = c.bytes ∧
              f.IsReadAs (Chunk.symbolValue? base externals chunks) i ops) := by
  obtain ⟨chunks, hlines, hbytes, hchunks⟩ := exists_chunks h
  refine ⟨chunks, hlines, hbytes, fun front c behind hsplit => ?_⟩
  obtain ⟨piece, hpiece, hnotes, hnumbers, hchunk⟩ := hchunks front c behind hsplit
  have hcode : bytes = Chunk.code front ++ c.bytes ++ Chunk.code behind := by
    rw [hbytes, hsplit, Chunk.code_append]
  have hsize : c.bytes.length = piece.code.length := by
    rw [hchunk]
    exact Relocation.length_patch (Piece.isClosed_ofLine hpiece)
  constructor
  · intro hnone
    rw [Piece.ofLine, hnone] at hpiece
    injection hpiece with hpiece
    rw [← hpiece] at hsize
    exact List.length_eq_zero_iff.mp hsize
  · intro command hcommand
    rw [Piece.ofLine, hcommand] at hpiece
    replace hpiece : Piece.ofCommand command = .ok piece := hpiece
    constructor
    · intro hnil
      rw [hnil, List.length_nil] at hsize
      exact (Piece.ofCommand_spec hpiece).1 (List.length_eq_zero_iff.mp hsize.symm)
    · intro hinstruction
      rw [Piece.ofCommand, if_neg (by rw [hinstruction]; exact Bool.false_ne_true)] at hpiece
      obtain ⟨ops, f, e, hops, hf, he, rfl⟩ := Piece.ofInstruction_eq_ok.mp hpiece
      -- memory holds the chunk at its address
      have hserves : (Region.source ⟨base, bytes⟩).Serves
          (base + UInt32.ofNat (Chunk.code front).length) c.bytes := by
        rw [hcode]
        refine Region.serves base ?_
        rw [hcode, List.length_append, List.length_append] at hlength
        omega
      rw [hchunk] at hserves ⊢
      obtain ⟨i, hdecode, hi, hread⟩ :=
        readsBack_of_patch (mem_of_resolve hf) he hnotes hnumbers
          (isTame_of_readOperands (hbytes ▸ hlength) hops) hserves
      exact ⟨ops, f, i, hops, hf, hdecode, hi, hread⟩

/-- A bit test that waits for a bit with a number from outside. The decoded instruction has
that number in its mode, the address in its first field, and leads back to its label. -/
theorem decode_of_assemble_btjt :
    assemble "loop: btjt $5000, #bit, loop" 0x8000 [("bit", 3)] =
        .ok [0x72, 0x06, 0x50, 0x00, 0xFB] ∧
      ∃ i g fields, decode (Region.source ⟨0x8000, [0x72, 0x06, 0x50, 0x00, 0xFB]⟩) 0x8000 = .ok i ∧
        i.bytes = [0x72, 0x06, 0x50, 0x00, 0xFB] ∧
        i.content = .known g fields ∧ g.modes = [.longMem, .bit 3, .relative] ∧
        fields[0]? = some 0x5000 ∧ i.target? = some 0x8000 := by
  have h : assemble "loop: btjt $5000, #bit, loop" 0x8000 [("bit", 3)] =
      .ok [0x72, 0x06, 0x50, 0x00, 0xFB] :=
    eq_ok_of_toOption (by decide +kernel)
  refine ⟨h, ?_⟩
  -- the text is one line with an instruction
  let command : Command := {
    name := ⟨"btjt", ⟨1, 7, 6, 4⟩⟩
    operands := [⟨"$5000", ⟨1, 12, 11, 5⟩⟩, ⟨"#bit", ⟨1, 19, 18, 4⟩⟩, ⟨"loop", ⟨1, 25, 24, 4⟩⟩]
    text := "btjt $5000, #bit, loop" }
  let address : Operand := ⟨.directMemory, some (.const 0x5000), ⟨1, 12, 11, 5⟩⟩
  let bit : Operand := ⟨.immediate, some (.symbol ⟨"bit", 0, false⟩), ⟨1, 19, 18, 4⟩⟩
  let target : Operand := ⟨.directMemory, some (.symbol ⟨"loop", 0, false⟩), ⟨1, 25, 24, 4⟩⟩
  obtain ⟨chunks, hlines, hbytes, hchunks⟩ := decode_of_assemble h (by decide)
  have hone : Line.parseAll 0 0 (Assembler.splitLines "loop: btjt $5000, #bit, loop".toList) =
      .ok [⟨[⟨"loop", ⟨1, 1, 0, 4⟩⟩], some command⟩] :=
    eq_ok_of_toOption (by decide +kernel)
  obtain ⟨c, rfl, hline⟩ :=
    List.map_eq_singleton_iff.mp (Except.ok.inj (hlines.symm.trans hone))
  obtain ⟨-, hdecoded⟩ := (hchunks [] c [] rfl).2 command (by rw [hline])
  obtain ⟨ops, f, i, hops, hf, hdecode, hi, g, k, fields, hcontent, -, hmodes, -, hcount, hslots⟩ :=
    hdecoded (by decide)
  have hread : readOperands command.operands = .ok [address, bit, target] :=
    eq_ok_of_toOption (by decide +kernel)
  obtain rfl := Except.ok.inj (hops.symm.trans hread)
  have hform : resolve "btjt" [address, bit, target] =
      .ok ⟨"btjt", [.longMem, .bit 0, .relative], 0x7200⟩ := rfl
  obtain rfl := Except.ok.inj (hf.symm.trans hform)
  replace hmodes : g.modes = [.longMem, .bit k, .relative] := hmodes
  have houtside : Chunk.symbolValue? 0x8000 [("bit", 3)] [c] "bit" = some 3 := by
    rw [Chunk.symbolValue?, Chunk.labelOffset?, hline, if_neg (by decide)]
    show (lastExternal? [("bit", 3)] "bit").map (fun v => (v.toNat : Int)) = some 3
    decide
  have hinside : Chunk.symbolValue? 0x8000 [("bit", 3)] [c] "loop" = some 0x8000 := by
    rw [Chunk.symbolValue?, Chunk.labelOffset?, hline, if_pos (by decide)]
    decide
  -- what the three slots say
  obtain ⟨first, second, third, rfl⟩ := List.length_eq_three.mp hcount
  have hfirst := hslots 0 .longMem address first (by rw [hmodes]; rfl) rfl rfl
  have hsecond := hslots 1 (.bit k) bit second (by rw [hmodes]; rfl) rfl rfl
  have hthird := hslots 2 .relative target third (by rw [hmodes]; rfl) rfl rfl
  obtain ⟨v, hv, hfield⟩ := hfirst.absolute rfl
  obtain rfl : (0x5000 : Int) = v := Option.some.inj hv
  have haddress : first = 0x5000 := Int.ofNat.inj hfield
  have hbit : k = 3 := by
    have hnumber := hsecond.bit k rfl
    rw [Operand.number?, show bit.value = some (.symbol ⟨"bit", 0, false⟩) from rfl] at hnumber
    dsimp only at hnumber
    rw [houtside] at hnumber
    replace hnumber : (3 : Int) = k.val := Option.some.inj hnumber
    omega
  have htarget : i.target? = some 0x8000 := by
    rcases hthird.relative rfl with ⟨d, hd, -⟩ | ⟨r, v, -, hv, htarget⟩
    · cases hd
    · rw [Operand.number?, show target.value = some (.symbol ⟨"loop", 0, false⟩) from rfl] at hv
      dsimp only at hv
      rw [hinside] at hv
      obtain rfl : (0x8000 : Int) = v := Option.some.inj hv
      exact htarget
  refine ⟨i, g, _, hdecode, hi.trans ?_, hcontent, hbit ▸ hmodes, congrArg some haddress, htarget⟩
  rw [hbytes]
  exact (List.append_nil c.bytes).symm

end Stm8
