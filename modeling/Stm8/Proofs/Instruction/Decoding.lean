import Stm8.Proofs.Encoding.BitNumber

/-!
# Reading an instruction where it stands

A source that answers for all runs inside some bytes (`ByteSource.Serves`) lets an
instruction that consists of these bytes be read:

> `decode_of_serves`: if the bytes are the opcode of the first form that has it,
> and fields as wide as its slots, `decode` finds that form and takes exactly
> these bytes.

A region serves every part of it that lies below the end of the address space
(`Region.serves`), and `fields_flatten` says which numbers are found in fields
that were put one behind the other.
-/

namespace Stm8

/-! ## Sources that serve bytes -/

/-- Whether the source answers for every run inside `bytes`, which stand at
`address`. -/
def ByteSource.Serves (source : ByteSource) (address : UInt32) (bytes : List UInt8) : Prop :=
  ∀ pre run post : List UInt8, bytes = pre ++ run ++ post → ∀ n, run.length = n →
    ∃ answer, source (address + UInt32.ofNat pre.length) n = some answer ∧ answer.toList = run

/-- Addresses inside a region are offsets from its base. -/
theorem toNat_sub_base (base : UInt32) {n : Nat} (h : n < 2 ^ 32) :
    (base + UInt32.ofNat n - base).toNat = n := by
  rw [UInt32.add_comm, UInt32.add_sub_cancel, UInt32.toNat_ofNat']
  exact Nat.mod_eq_of_lt h

/-- A region serves every part of it. -/
theorem Region.serves (base : UInt32) {front bytes behind : List UInt8}
    (h : front.length + bytes.length < 2 ^ 32) :
    (Region.source ⟨base, front ++ bytes ++ behind⟩).Serves
      (base + UInt32.ofNat front.length) bytes := by
  rintro pre run post rfl n rfl
  have haddress : (base + UInt32.ofNat front.length + UInt32.ofNat pre.length - base).toNat =
      (front ++ pre).length := by
    rw [UInt32.add_assoc, ← UInt32.ofNat_add, List.length_append]
    refine toNat_sub_base base ?_
    rw [List.length_append, List.length_append] at h
    omega
  have hrun : ((front ++ (pre ++ run ++ post) ++ behind).drop (front ++ pre).length).take
      run.length = run := by
    rw [show front ++ (pre ++ run ++ post) ++ behind = (front ++ pre) ++ (run ++ (post ++ behind))
      by simp, List.drop_left, List.take_left]
  unfold Region.source
  simp only [haddress, hrun]
  exact ⟨⟨run.toArray, by simp⟩, by simp, by simp⟩

theorem Region.serves_front (address : UInt32) {bytes : List UInt8} (behind : List UInt8)
    (h : bytes.length < 2 ^ 32) :
    (Region.source ⟨address, bytes ++ behind⟩).Serves address bytes := by
  have hserves : (Region.source ⟨address, [] ++ bytes ++ behind⟩).Serves
      (address + UInt32.ofNat ([] : List UInt8).length) bytes :=
    Region.serves address (by simpa using h)
  have hstart : address + UInt32.ofNat ([] : List UInt8).length = address := by simp
  rw [hstart] at hserves
  exact hserves

/-! ## Numbers in fields -/

/-- Fields that stand one behind the other are found again. -/
theorem splitFields_flatten {widths : List Nat} {fields : List (List UInt8)}
    (h : fields.map List.length = widths) :
    splitFields widths fields.flatten = fields.map readBigEndian := by
  subst h
  induction fields with
  | nil => rfl
  | cons field fields ih =>
    rw [List.map_cons, List.flatten_cons, splitFields, List.take_left, List.drop_left, ih,
      List.map_cons]

/-- The numbers in fields that stand in the order of the form, in the order as
written. -/
theorem Form.fields_flatten {f : Form} {fields : List (List UInt8)}
    (h : fields.map List.length = f.modes.map Mode.width) :
    f.fields (f.emission fields).flatten = fields.map readBigEndian := by
  have hwidths : (f.emission fields).map List.length = (f.emission f.modes).map Mode.width := by
    rw [f.map_emission, f.map_emission, h]
  unfold Form.fields
  rw [splitFields_flatten hwidths, f.map_emission, Form.emission_emission]

/-! ## Reading -/

theorem Reading.run_fetch {α : Type} {source : ByteSource} {address : UInt32} {n : Nat}
    {next : Vector UInt8 n → Reading α} {answer : Vector UInt8 n}
    (h : source address n = some answer) :
    (Reading.fetch address n next).run source = (next answer).run source := by
  rw [Reading.run, h]

/-- The byte in an answer of one byte. -/
theorem getElem_of_toList {n : Nat} {answer : Vector UInt8 n} {b : UInt8} (hn : 0 < n)
    (h : answer.toList = [b]) : answer[0] = b := by
  have hget : answer.toList[0]? = some b := by
    rw [h]
    rfl
  rw [Vector.getElem?_toList, Vector.getElem?_eq_getElem hn] at hget
  exact Option.some.inj hget

/-- Reads on behind the opcode of the first form that has it. -/
theorem run_readBehind {source : ByteSource} {address : UInt32} {g : Form}
    (hg : catalog.withOpcode? g.opcode = some g) {fields : List UInt8}
    (hwidth : fields.length = g.fieldWidth)
    (hserves : source.Serves address (g.opcodeBytes ++ fields)) :
    (Instruction.readBehind address g.opcodeBytes).run source =
      .ok ⟨address, g.opcodeBytes ++ fields, .known g (g.fields fields)⟩ := by
  rw [Instruction.readBehind, g.opcodeKey_opcodeBytes, hg, Instruction.readFields]
  by_cases hzero : g.fieldWidth = 0
  · have hnil : fields = [] := List.length_eq_zero_iff.mp (by omega)
    rw [if_pos hzero, hnil, List.append_nil]
    rfl
  · obtain ⟨answer, hanswer, hfields⟩ :=
      hserves g.opcodeBytes fields [] (by simp) g.fieldWidth hwidth
    rw [if_neg hzero, Reading.run_fetch hanswer, hfields]
    rfl

/-- An instruction whose bytes are served is read, and nothing but these bytes. -/
theorem decode_of_serves {source : ByteSource} {address : UInt32} {g : Form}
    (hg : catalog.withOpcode? g.opcode = some g) {fields : List UInt8}
    (hwidth : fields.length = g.fieldWidth)
    (hserves : source.Serves address (g.opcodeBytes ++ fields)) :
    decode source address =
      .ok ⟨address, g.opcodeBytes ++ fields, .known g (g.fields fields)⟩ := by
  have hpage := Form.pageByte_opcode g (Form.mem_of_withOpcode? hg).1
  have hread := run_readBehind hg hwidth hserves
  have hstart : address + UInt32.ofNat ([] : List UInt8).length = address := by simp
  unfold decode
  rw [mapError_eq_ok, Instruction.read]
  -- the first byte says whether there is a second one
  rcases g.opcodeBytes_eq with ⟨-, hb⟩ | ⟨-, hb⟩
  · obtain ⟨first, hfirst, hbyte⟩ :=
      hserves [] [g.opcode.toUInt8] fields (by rw [hb]; rfl) 1 rfl
    have hnone : isPageByte g.opcode.toUInt8 = false := by simpa [hb] using hpage
    rw [hstart] at hfirst
    rw [Reading.run_fetch hfirst, getElem_of_toList Nat.one_pos hbyte, hnone,
      if_neg Bool.false_ne_true]
    rw [hb] at hread ⊢
    exact hread
  · obtain ⟨first, hfirst, hbyte⟩ :=
      hserves [] [(g.opcode >>> 8).toUInt8] (g.opcode.toUInt8 :: fields) (by rw [hb]; rfl) 1 rfl
    obtain ⟨second, hsecond, hbyte'⟩ :=
      hserves [(g.opcode >>> 8).toUInt8] [g.opcode.toUInt8] fields (by rw [hb]; rfl) 1 rfl
    have hsome : isPageByte (g.opcode >>> 8).toUInt8 = true := by simpa [hb] using hpage
    replace hsecond : source (address + 1) 1 = some second := hsecond
    rw [hstart] at hfirst
    rw [Reading.run_fetch hfirst, getElem_of_toList Nat.one_pos hbyte, hsome, if_pos rfl,
      Reading.run_fetch hsecond, getElem_of_toList Nat.one_pos hbyte']
    rw [hb] at hread ⊢
    exact hread

end Stm8
