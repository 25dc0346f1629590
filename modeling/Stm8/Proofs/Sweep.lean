import Stm8.Sweep
import Stm8.Proofs.Instruction.Decoded

/-!
# What a sweep finds

The items of a sweep are instructions that were decoded, and one cut off at the end
perhaps. Together they are all bytes in order:

> `flatten_sweep`: the bytes of the items are the bytes that were swept.
> `isTruncated_of_mem_sweep`: only the last item can be cut off.
> `exists_decode_of_mem_sweep`: an item that is not cut off was decoded.
-/

namespace Stm8

/-! ## One item -/

/-- What a region gives is what stands there. -/
theorem Region.eq_of_gives {base address : UInt32} {bytes run : List UInt8} {n : Nat}
    (hn : (address - base).toNat = n) (h : (Region.source ⟨base, bytes⟩).Gives address run) :
    (bytes.drop n).take run.length = run := by
  obtain ⟨answer, hanswer, hrun⟩ := h
  unfold Region.source at hanswer
  simp only [hn] at hanswer
  split at hanswer
  · injection hanswer with hanswer
    rw [← hrun, ← hanswer]
    simp
  · cases hanswer

/-- A run and what stands behind it are a longer run. -/
theorem take_append_of_take {bytes front run : List UInt8}
    (hfront : bytes.take front.length = front)
    (hrun : (bytes.drop front.length).take run.length = run) :
    bytes.take (front ++ run).length = front ++ run := by
  rw [List.length_append, List.take_add, hfront, hrun]

/-- The opcode that is read at the front of a region is its first bytes. -/
theorem take_of_readsOpcode {base : UInt32} {bytes opcode : List UInt8}
    (h : ReadsOpcode (Region.source ⟨base, bytes⟩) base opcode) :
    bytes.take opcode.length = opcode ∧ 0 < opcode.length ∧ opcode.length ≤ 2 := by
  have hzero : (base - base).toNat = 0 := by
    rw [UInt32.sub_self]
    rfl
  cases h with
  | one b _ hgives =>
    exact ⟨Region.eq_of_gives hzero hgives, Nat.one_pos, Nat.le_succ 1⟩
  | two page b _ hgives hgives' =>
    have hone : (base + 1 - base).toNat = 1 := @toNat_sub_base base 1 (by decide)
    have hfirst : bytes.take [page].length = [page] := Region.eq_of_gives hzero hgives
    have hsecond : (bytes.drop [page].length).take [b].length = [b] :=
      Region.eq_of_gives hone hgives'
    exact ⟨take_append_of_take hfirst hsecond, Nat.two_pos, Nat.le_refl 2⟩

/-- An instruction that is decoded at the front of a region is its first bytes. -/
theorem take_of_decode {base : UInt32} {bytes : List UInt8} {i : Instruction}
    (h : decode (Region.source ⟨base, bytes⟩) base = .ok i) :
    bytes.take i.size = i.bytes ∧ 0 < i.size := by
  obtain ⟨opcode, hopcode, h⟩ := exists_readsOpcode h
  obtain ⟨hfront, hpos, hlength⟩ := take_of_readsOpcode hopcode
  rcases readBehind_cases h with rfl | ⟨f, fields, -, -, rfl, hfields⟩
  · exact ⟨hfront, hpos⟩
  · refine ⟨take_append_of_take hfront ?_, ?_⟩
    · rcases hfields with rfl | hgives
      · rfl
      · exact Region.eq_of_gives (toNat_sub_base base (by omega)) hgives
    · show 0 < (opcode ++ fields).length
      rw [List.length_append]
      omega

/-- The first item is the first bytes, and at least one. -/
theorem take_firstInstruction (base : UInt32) {bytes : List UInt8} (hbytes : bytes ≠ []) :
    bytes.take (firstInstruction base bytes).size = (firstInstruction base bytes).bytes ∧
      0 < (firstInstruction base bytes).size := by
  unfold firstInstruction
  cases hdecode : decode (Region.source ⟨base, bytes⟩) base with
  | ok i => exact take_of_decode hdecode
  | error problem => exact ⟨List.take_length, List.length_pos_iff.mpr hbytes⟩

/-! ## All items -/

/-- A sweep goes on behind its first item. -/
theorem sweep_eq (base : UInt32) {bytes : List UInt8} (hbytes : bytes ≠ []) :
    sweep base bytes = firstInstruction base bytes ::
      sweep (base + UInt32.ofNat (firstInstruction base bytes).size)
        (bytes.drop (firstInstruction base bytes).size) := by
  have hpos := (take_firstInstruction base hbytes).2
  cases bytes with
  | nil => exact absurd rfl hbytes
  | cons b rest =>
    rw [sweep]
    obtain ⟨n, hn⟩ : ∃ n, (firstInstruction base (b :: rest)).size = n + 1 :=
      ⟨_, (Nat.sub_add_cancel hpos).symm⟩
    rw [hn, List.drop_succ_cons]
    rfl

/-- What holds without bytes, and of bytes if it does behind their first item, holds of
all bytes. -/
theorem sweep_induction {P : UInt32 → List UInt8 → Prop} (nil : ∀ base, P base [])
    (cons : ∀ base bytes, bytes ≠ [] →
      P (base + UInt32.ofNat (firstInstruction base bytes).size)
        (bytes.drop (firstInstruction base bytes).size) → P base bytes)
    (base : UInt32) (bytes : List UInt8) : P base bytes :=
  if h : bytes = [] then h ▸ nil base
  else cons base bytes h (sweep_induction nil cons _ _)
termination_by bytes.length
decreasing_by
  have hpos := (take_firstInstruction base h).2
  have hlength := List.length_pos_iff.mpr h
  rw [List.length_drop]
  omega

/-- The bytes of all items are the bytes that were swept. -/
theorem flatten_sweep (base : UInt32) (bytes : List UInt8) :
    ((sweep base bytes).map Instruction.bytes).flatten = bytes := by
  induction base, bytes using sweep_induction with
  | nil base =>
    rw [sweep]
    rfl
  | cons base bytes hbytes ih =>
    rw [sweep_eq base hbytes, List.map_cons, List.flatten_cons, ih,
      ← (take_firstInstruction base hbytes).1, List.take_append_drop]

/-- What is cut off is cut off by the end of the bytes: only the last item can be. -/
theorem isTruncated_of_mem_sweep (base : UInt32) (bytes : List UInt8)
    (hlast : ∀ i, (sweep base bytes).getLast? = some i → i.isTruncated = false) :
    ∀ i ∈ sweep base bytes, i.isTruncated = false := by
  induction base, bytes using sweep_induction with
  | nil base =>
    rw [sweep]
    intro i hi
    cases hi
  | cons base bytes hbytes ih =>
    rw [sweep_eq base hbytes] at hlast ⊢
    cases hrest : sweep (base + UInt32.ofNat (firstInstruction base bytes).size)
        (bytes.drop (firstInstruction base bytes).size) with
    | nil =>
      rw [hrest] at hlast
      rw [List.forall_mem_singleton]
      exact hlast _ rfl
    | cons next items =>
      rw [hrest] at hlast ih
      rw [List.getLast?_cons_cons] at hlast
      rw [List.forall_mem_cons]
      refine ⟨?_, ih hlast⟩
      unfold firstInstruction at hrest ⊢
      cases hdecode : decode (Region.source ⟨base, bytes⟩) base with
      | ok i => exact beq_eq_false_iff_ne.mpr (content_of_decode hdecode).1
      | error problem =>
        -- the bytes that cannot be decoded are all that are left
        have hnone : bytes.drop (Instruction.ofTail base bytes).size = [] := List.drop_length
        rw [hdecode] at hrest
        dsimp only at hrest
        rw [hnone, sweep] at hrest
        cases hrest

/-- An item that is not cut off was decoded. -/
theorem exists_decode_of_mem_sweep (base : UInt32) (bytes : List UInt8) {i : Instruction}
    (hi : i ∈ sweep base bytes) (hwhole : i.isTruncated = false) :
    ∃ source address, decode source address = .ok i := by
  induction base, bytes using sweep_induction with
  | nil base =>
    rw [sweep] at hi
    cases hi
  | cons base bytes hbytes ih =>
    rw [sweep_eq base hbytes] at hi
    rcases List.mem_cons.mp hi with rfl | hi
    · refine ⟨Region.source ⟨base, bytes⟩, base, ?_⟩
      unfold firstInstruction at hwhole ⊢
      cases hdecode : decode (Region.source ⟨base, bytes⟩) base with
      | ok i => rfl
      | error problem =>
        rw [hdecode] at hwhole
        cases hwhole
    · exact ih hi

end Stm8
