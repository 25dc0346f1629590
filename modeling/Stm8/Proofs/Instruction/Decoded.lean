import Stm8.Proofs.BigEndian
import Stm8.Proofs.Instruction.Decoding
import Stm8.Proofs.Encoding.BitNumber

/-!
# What a decoded instruction consists of

The converse of `decode_of_serves`. Whatever a source answers, an instruction that
was read from it is one of two things (`readBehind_cases`): the bytes of an opcode that no
form has, or the opcode of the first form that has it with the bytes of its fields
behind it. In the second case the bytes can be told from the numbers in the fields:

> `isMadeOf_of_decode`: the bytes are the opcode and one big-endian field for every
> number, each of which fits its field.
-/

namespace Stm8

/-! ## Big-endian fields -/

/-- Bytes are the fields of the numbers that are found in them. -/
theorem splitFields_spec :
    ∀ (widths : List Nat) (bytes : List UInt8), bytes.length = widths.sum →
      (splitFields widths bytes).length = widths.length ∧
      (∀ s ∈ widths.zip (splitFields widths bytes), s.2 < 256 ^ s.1) ∧
      ((widths.zip (splitFields widths bytes)).map fun s => bigEndian s.1 s.2).flatten = bytes
  | [], bytes, h => by
    obtain rfl : bytes = [] := List.length_eq_zero_iff.mp h
    exact ⟨rfl, by simp, rfl⟩
  | width :: widths, bytes, h => by
    rw [List.sum_cons] at h
    obtain ⟨hlength, hfits, hbytes⟩ := splitFields_spec widths (bytes.drop width) (by simp; omega)
    have hfront : (bytes.take width).length = width := by simp; omega
    rw [splitFields, List.zip_cons_cons]
    refine ⟨by simp [hlength], ?_, ?_⟩
    · rw [List.forall_mem_cons]
      exact ⟨readBigEndian_lt hfront, hfits⟩
    · rw [List.map_cons, List.flatten_cons, hbytes, bigEndian_readBigEndian hfront,
        List.take_append_drop]

/-! ## Answers -/

/-- The bytes that a source gave for some request. -/
def ByteSource.Gives (source : ByteSource) (address : UInt32) (bytes : List UInt8) : Prop :=
  ∃ answer, source address bytes.length = some answer ∧ answer.toList = bytes

theorem Reading.exists_of_run_fetch {α : Type} {source : ByteSource} {address : UInt32} {n : Nat}
    {next : Vector UInt8 n → Reading α} {result : α}
    (h : (Reading.fetch address n next).run source = .ok result) :
    ∃ answer, source address n = some answer ∧ (next answer).run source = .ok result := by
  rw [run] at h
  cases hanswer : source address n with
  | none =>
    rw [hanswer] at h
    cases h
  | some answer =>
    rw [hanswer] at h
    exact ⟨answer, rfl, h⟩

theorem ByteSource.gives_of_answer {source : ByteSource} {address : UInt32} {n : Nat}
    {answer : Vector UInt8 n} (h : source address n = some answer) :
    source.Gives address answer.toList := by
  unfold Gives
  rw [Vector.length_toList]
  exact ⟨answer, h, rfl⟩

theorem exists_toList_eq (answer : Vector UInt8 1) : ∃ b, answer.toList = [b] :=
  List.length_eq_one_iff.mp answer.length_toList

/-! ## The opcode -/

/-- The bytes of an opcode, as they are read: a byte that selects no page, or one
that does and another byte. -/
inductive ReadsOpcode (source : ByteSource) (address : UInt32) : List UInt8 → Prop where
  /-- An opcode of one byte. -/
  | one (b : UInt8) (hb : isPageByte b = false) (h : source.Gives address [b]) :
    ReadsOpcode source address [b]
  /-- An opcode of two bytes. -/
  | two (page b : UInt8) (hpage : isPageByte page = true) (h : source.Gives address [page])
    (h' : source.Gives (address + 1) [b]) : ReadsOpcode source address [page, b]

/-- Reading begins with the opcode. -/
theorem exists_readsOpcode {source : ByteSource} {address : UInt32} {i : Instruction}
    (h : decode source address = .ok i) :
    ∃ opcode, ReadsOpcode source address opcode ∧
      (Instruction.readBehind address opcode).run source = .ok i := by
  rw [decode, mapError_eq_ok, Instruction.read] at h
  obtain ⟨first, hfirst, h⟩ := Reading.exists_of_run_fetch h
  obtain ⟨b, hb⟩ := exists_toList_eq first
  have hgives := ByteSource.gives_of_answer hfirst
  rw [hb] at hgives
  rw [getElem_of_toList Nat.one_pos hb] at h
  cases hpage : isPageByte b with
  | false =>
    rw [hpage, if_neg Bool.false_ne_true] at h
    exact ⟨_, .one _ hpage hgives, h⟩
  | true =>
    rw [hpage, if_pos rfl] at h
    obtain ⟨second, hsecond, h⟩ := Reading.exists_of_run_fetch h
    obtain ⟨b', hb'⟩ := exists_toList_eq second
    have hgives' := ByteSource.gives_of_answer hsecond
    rw [hb'] at hgives'
    rw [getElem_of_toList Nat.one_pos hb'] at h
    exact ⟨_, .two _ _ hpage hgives hgives', h⟩

/-- The bytes that were read are the opcode of the form that is found for them. -/
theorem opcodeBytes_of_readsOpcode {source : ByteSource} {address : UInt32}
    {opcode : List UInt8} (h : ReadsOpcode source address opcode) {f : Form}
    (hf : f.opcode = opcodeKey opcode) : f.opcodeBytes = opcode := by
  have hkey : f.opcode.toNat = readBigEndian opcode % 2 ^ 16 := by
    rw [hf, opcodeKey, UInt16.toNat_ofNat']
  cases h with
  | one b hb _ =>
    have hlt := b.toNat_lt
    have hread : readBigEndian [b] = b.toNat := by simp [readBigEndian]
    rcases f.opcodeBytes_eq with ⟨-, hbytes⟩ | ⟨hlarge, -⟩
    · have hlow : f.opcode.toUInt8 = b := by
        apply UInt8.toNat_inj.mp
        rw [Form.toNat_low]
        omega
      rw [hbytes, hlow]
    · omega
  | two page b hpage _ _ =>
    have hlt := b.toNat_lt
    have hlt' := page.toNat_lt
    have hread : readBigEndian [page, b] = page.toNat * 256 + b.toNat := by simp [readBigEndian]
    -- page zero is that of the opcodes of one byte
    have hpos : page.toNat ≠ 0 := by
      intro hzero
      rw [show page = 0 from UInt8.toNat_inj.mp hzero] at hpage
      revert hpage
      decide
    rcases f.opcodeBytes_eq with ⟨hsmall, -⟩ | ⟨-, hbytes⟩
    · omega
    · have hlow : f.opcode.toUInt8 = b := by
        apply UInt8.toNat_inj.mp
        rw [Form.toNat_low]
        omega
      have hhigh : (f.opcode >>> 8).toUInt8 = page := by
        apply UInt8.toNat_inj.mp
        rw [Form.toNat_high]
        omega
      rw [hbytes, hlow, hhigh]

/-- The fields are what is left of the instruction behind the bytes that were read. -/
theorem fieldWidth_of_readsOpcode {source : ByteSource} {address : UInt32}
    {opcode : List UInt8} (h : ReadsOpcode source address opcode) {f : Form}
    (hf : f.opcode = opcodeKey opcode) : f.fieldWidth = f.length - opcode.length := by
  rw [← opcodeBytes_of_readsOpcode h hf, f.length_opcodeBytes, f.fieldWidth_eq]

/-! ## The whole instruction -/

/-- What is found behind the bytes of an opcode: nothing that has it, or the first
form that has it, and the bytes of its fields. -/
theorem readBehind_cases {source : ByteSource} {address : UInt32} {opcode : List UInt8}
    {i : Instruction} (h : (Instruction.readBehind address opcode).run source = .ok i) :
    i = ⟨address, opcode, .unknown⟩ ∨
      ∃ f fields, catalog.withOpcode? (opcodeKey opcode) = some f ∧
        fields.length = f.fieldWidth ∧
        i = ⟨address, opcode ++ fields, .known f (f.fields fields)⟩ ∧
        (fields = [] ∨ source.Gives (address + UInt32.ofNat opcode.length) fields) := by
  rw [Instruction.readBehind] at h
  generalize catalog.withOpcode? (opcodeKey opcode) = found at h
  cases found with
  | none =>
    injection h with h
    exact Or.inl h.symm
  | some f =>
    refine Or.inr ?_
    rw [Instruction.readFields] at h
    by_cases hzero : f.fieldWidth = 0
    · rw [if_pos hzero] at h
      injection h with h
      refine ⟨f, [], rfl, hzero.symm, ?_, Or.inl rfl⟩
      rw [List.append_nil]
      exact h.symm
    · rw [if_neg hzero] at h
      obtain ⟨answer, hanswer, h⟩ := Reading.exists_of_run_fetch h
      injection h with h
      exact ⟨f, answer.toList, rfl, Vector.length_toList, h.symm,
        Or.inr (ByteSource.gives_of_answer hanswer)⟩

/-- What was decoded is not cut off, and what no form has is an opcode. -/
theorem content_of_decode {source : ByteSource} {address : UInt32} {i : Instruction}
    (h : decode source address = .ok i) :
    i.content ≠ .truncated ∧
      (i.content = .unknown → i.bytes.length = 1 ∨ i.bytes.length = 2) := by
  obtain ⟨opcode, hopcode, h⟩ := exists_readsOpcode h
  rcases readBehind_cases h with rfl | ⟨f, fields, -, -, rfl, -⟩
  · refine ⟨Content.noConfusion, fun _ => ?_⟩
    cases hopcode with
    | one b _ _ => exact Or.inl rfl
    | two page b _ _ _ => exact Or.inr rfl
  · exact ⟨Content.noConfusion, Content.noConfusion⟩

/-- What an instruction of the form `f` with these numbers in its fields consists of. -/
structure Instruction.IsMadeOf (i : Instruction) (f : Form) (fields : List Nat) : Prop where
  /-- No form before it has its opcode. -/
  first : catalog.withOpcode? f.opcode = some f
  /-- There is a number for every slot. -/
  length : fields.length = f.modes.length
  /-- Every number fits its field. -/
  fits : ∀ s ∈ f.modes.zip fields, s.2 < 256 ^ s.1.width
  /-- The bytes are the opcode and the fields. -/
  bytes : i.bytes = f.opcodeBytes ++
    (f.emission ((f.modes.zip fields).map fun s => bigEndian s.1.width s.2)).flatten

/-- The numbers in the fields of a form, and the bytes that hold them. -/
theorem Form.fields_spec {f : Form} {bytes : List UInt8} (h : bytes.length = f.fieldWidth) :
    (f.fields bytes).length = f.modes.length ∧
      (∀ s ∈ f.modes.zip (f.fields bytes), s.2 < 256 ^ s.1.width) ∧
      (f.emission ((f.modes.zip (f.fields bytes)).map fun s => bigEndian s.1.width s.2)).flatten =
        bytes := by
  have hwidths : bytes.length = ((f.emission f.modes).map Mode.width).sum := by
    rw [h, f.map_emission, f.sum_emission]
    rfl
  obtain ⟨hlength, hfits, hbytes⟩ := splitFields_spec _ bytes hwidths
  rw [List.length_map, f.length_emission] at hlength
  rw [List.zip_map_left] at hfits hbytes
  -- the slots as written are those in memory, put back into order
  have hslots : f.modes.zip (f.fields bytes) =
      f.emission ((f.emission f.modes).zip
        (splitFields ((f.emission f.modes).map Mode.width) bytes)) := by
    rw [← f.zip_emission (by rw [f.length_emission, hlength]), f.emission_emission]
    rfl
  refine ⟨?_, ?_, ?_⟩
  · rw [fields, f.length_emission, hlength]
  · intro s hs
    rw [hslots, f.mem_emission] at hs
    exact hfits (s.1.width, s.2) (List.mem_map_of_mem hs)
  · rw [hslots, f.map_emission, f.emission_emission]
    rw [List.map_map] at hbytes
    exact hbytes

/-- A decoded instruction consists of the opcode of its form and of its fields. -/
theorem isMadeOf_of_decode {source : ByteSource} {address : UInt32} {i : Instruction} {f : Form}
    {fields : List Nat} (h : decode source address = .ok i) (hi : i.content = .known f fields) :
    i.IsMadeOf f fields := by
  obtain ⟨opcode, hopcode, h⟩ := exists_readsOpcode h
  rcases readBehind_cases h with rfl | ⟨g, bytes, hg, hlength, rfl, -⟩
  · cases hi
  · injection hi with hform hfields
    subst hform hfields
    have hkey := (Form.mem_of_withOpcode? hg).2
    obtain ⟨hcount, hfits, hbytes⟩ := Form.fields_spec hlength
    refine ⟨?_, hcount, hfits, ?_⟩
    · rw [hkey]
      exact hg
    · rw [hbytes, opcodeBytes_of_readsOpcode hopcode hkey]

end Stm8
