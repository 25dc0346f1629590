import Stm8.Proofs.Sweep

/-!
# How a sweep divides bytes

An instruction is read from its own bytes and from no others. What stands behind it
does not matter (`decode_append`), and neither does what stands in front of it, up to
the point where addresses come round (`decode_behind`). A sweep, which looks at the
bytes that are left and forgets those in front, therefore finds at every place what
`decode` finds there in the whole region.

An item is cut off exactly where the bytes that are left are the beginning of an
instruction (`isTruncated_firstInstruction_iff`). Names play no part in any of this: they
are looked up when an item is written.

> `sweep_partition`: the items follow each other without a gap, are what `decode`
> finds at their addresses, and only the last one can be cut off, after four bytes at
> most; and bytes behind a sweep without such an item continue it.
-/

namespace Stm8

/-! ## Bytes behind an instruction -/

/-- A result stays the same if a source answers more requests. -/
theorem Reading.run_of_extends {α : Type} {s t : ByteSource}
    (hst : ∀ address n answer, s address n = some answer → t address n = some answer)
    (r : Reading α) {result : α} (h : r.run s = .ok result) : r.run t = .ok result := by
  induction r with
  | done => exact h
  | fetch address n next ih =>
    obtain ⟨answer, hanswer, h⟩ := exists_of_run_fetch h
    rw [run_fetch (hst address n answer hanswer)]
    exact ih answer h

/-- A longer region answers what a shorter one does. -/
theorem Region.source_append {base address : UInt32} {bytes : List UInt8} (behind : List UInt8)
    {n : Nat} {answer : Vector UInt8 n}
    (h : Region.source ⟨base, bytes⟩ address n = some answer) :
    Region.source ⟨base, bytes ++ behind⟩ address n = some answer := by
  unfold Region.source at h ⊢
  dsimp only at h ⊢
  split at h
  next hlength =>
    have hrun : ((bytes ++ behind).drop (address - base).toNat).take n =
        (bytes.drop (address - base).toNat).take n := by
      rw [List.length_take, List.length_drop] at hlength
      by_cases hinside : (address - base).toNat ≤ bytes.length
      · rw [List.drop_append_of_le_length hinside, List.take_append_of_le_length]
        rw [List.length_drop]
        omega
      · obtain rfl : n = 0 := by omega
        rw [List.take_zero, List.take_zero]
    simp only [hrun, dif_pos hlength]
    exact h
  next => cases h

/-- What stands behind an instruction does not change it. -/
theorem decode_append {base address : UInt32} {bytes : List UInt8} {i : Instruction}
    (h : decode (Region.source ⟨base, bytes⟩) address = .ok i) (behind : List UInt8) :
    decode (Region.source ⟨base, bytes ++ behind⟩) address = .ok i := by
  rw [decode, mapError_eq_ok] at h ⊢
  exact Reading.run_of_extends (fun _ _ _ => Region.source_append behind) _ h

/-! ## Bytes in front of an instruction -/

theorem add_ofNat_zero (address : UInt32) : address + UInt32.ofNat 0 = address :=
  UInt32.add_zero address

/-- A region answers behind its first bytes as the rest of it does. -/
theorem Region.source_behind (base : UInt32) (front bytes : List UInt8) {k : Nat} (n : Nat)
    (h : front.length + k < 2 ^ 32) :
    Region.source ⟨base, front ++ bytes⟩ (base + UInt32.ofNat front.length + UInt32.ofNat k) n =
      Region.source ⟨base + UInt32.ofNat front.length, bytes⟩
        (base + UInt32.ofNat front.length + UInt32.ofNat k) n := by
  have hwhole : (base + UInt32.ofNat front.length + UInt32.ofNat k - base).toNat =
      front.length + k := by
    rw [UInt32.add_assoc, ← UInt32.ofNat_add]
    exact toNat_sub_base base h
  have hrest : (base + UInt32.ofNat front.length + UInt32.ofNat k -
      (base + UInt32.ofNat front.length)).toNat = k :=
    toNat_sub_base _ (by omega)
  unfold Region.source
  simp only [hwhole, hrest, List.drop_append, List.drop_eq_nil_of_le (Nat.le_add_right _ k),
    List.nil_append, Nat.add_sub_cancel_left]

/-- What a region answers stands in it. -/
theorem Region.length_of_answer {base address : UInt32} {bytes : List UInt8} {k n : Nat}
    (hk : k < 2 ^ 32) (haddress : address = base + UInt32.ofNat k) (hn : 0 < n)
    (h : (Region.source ⟨base, bytes⟩ address n).isSome) : k + n ≤ bytes.length := by
  subst haddress
  unfold Region.source at h
  simp only [toNat_sub_base base hk] at h
  split at h
  next hlength =>
    rw [List.length_take, List.length_drop] at hlength
    omega
  next => cases h

/-- The request for the fields of an instruction begins behind its opcode. -/
theorem Instruction.address_of_mem_readFields {source : ByteSource} {address : UInt32}
    {opcode : List UInt8} {f? : Option Form} {q : Request × Bool}
    (h : q ∈ (Instruction.readFields address opcode f?).requests source) :
    q.1.address = address + UInt32.ofNat opcode.length := by
  cases f? with
  | none => cases h
  | some f =>
    rw [Instruction.readFields] at h
    split at h
    · cases h
    · rw [Reading.requests] at h
      split at h
      · obtain rfl | h := List.mem_cons.mp h
        · rfl
        · cases h
      · obtain rfl := List.mem_singleton.mp h
        rfl

/-- The requests for an instruction begin at most as many bytes behind its address as
were answered before. -/
theorem Instruction.address_of_mem_read {source : ByteSource} {address : UInt32}
    {q : Request × Bool} (h : q ∈ (Instruction.read address).requests source) :
    q.1.address = address ∨
      (q.1.address = address + 1 ∧ (source address 1).isSome) ∨
      (q.1.address = address + 2 ∧ (source (address + 1) 1).isSome) := by
  rw [Instruction.read, Reading.requests] at h
  cases hfirst : source address 1 with
  | none =>
    rw [hfirst] at h
    obtain rfl := List.mem_singleton.mp h
    exact Or.inl rfl
  | some first =>
    rw [hfirst] at h
    obtain rfl | h := List.mem_cons.mp h
    · exact Or.inl rfl
    refine Or.inr ?_
    split at h
    · rw [Reading.requests] at h
      cases hsecond : source (address + 1) 1 with
      | none =>
        rw [hsecond] at h
        obtain rfl := List.mem_singleton.mp h
        exact Or.inl ⟨rfl, rfl⟩
      | some second =>
        rw [hsecond] at h
        obtain rfl | h := List.mem_cons.mp h
        · exact Or.inl ⟨rfl, rfl⟩
        · exact Or.inr ⟨address_of_mem_readFields h, rfl⟩
    · exact Or.inl ⟨address_of_mem_readFields h, rfl⟩

/-- What stands in front of an instruction does not change it, nor whether there is
one. -/
theorem decode_behind (base : UInt32) {front bytes : List UInt8}
    (h : front.length + bytes.length < 2 ^ 32) :
    decode (Region.source ⟨base, front ++ bytes⟩) (base + UInt32.ofNat front.length) =
      decode (Region.source ⟨base + UInt32.ofNat front.length, bytes⟩)
        (base + UInt32.ofNat front.length) := by
  unfold decode
  congr 1
  refine (Reading.run_congr _ fun q hq => ?_).symm
  -- every request begins some bytes behind the address, and these bytes are there
  have hplace : ∃ k, q.1.address = base + UInt32.ofNat front.length + UInt32.ofNat k ∧
      k ≤ bytes.length := by
    rcases Instruction.address_of_mem_read hq with haddress | ⟨haddress, hanswer⟩ |
        ⟨haddress, hanswer⟩
    · exact ⟨0, by rw [haddress, add_ofNat_zero], Nat.zero_le _⟩
    · exact ⟨1, haddress, Region.length_of_answer (Nat.two_pow_pos 32)
        (add_ofNat_zero _).symm Nat.one_pos hanswer⟩
    · exact ⟨2, haddress, Region.length_of_answer (by decide) rfl Nat.one_pos hanswer⟩
  obtain ⟨k, hk, hinside⟩ := hplace
  rw [hk]
  exact (Region.source_behind base front bytes q.1.length (by omega)).symm

/-- At every place inside a region, `decode` finds what it finds in the bytes from there
on. -/
theorem decode_drop (base : UInt32) {bytes : List UInt8} (hlength : bytes.length < 2 ^ 32)
    {offset : Nat} (h : offset ≤ bytes.length) :
    decode (Region.source ⟨base, bytes⟩) (base + UInt32.ofNat offset) =
      decode (Region.source ⟨base + UInt32.ofNat offset, bytes.drop offset⟩)
        (base + UInt32.ofNat offset) := by
  have htake : (bytes.take offset).length = offset := List.length_take_of_le h
  have hwhere := @decode_behind base (bytes.take offset) (bytes.drop offset)
    (by rw [← List.length_append, List.take_append_drop]; exact hlength)
  rw [List.take_append_drop, htake] at hwhere
  exact hwhere

/-- So a sweep is a walk through one region: at every offset it finds the instruction there,
and goes on at the offset behind it. -/
theorem sweep_drop (base : UInt32) {bytes : List UInt8} (hlength : bytes.length < 2 ^ 32)
    {offset : Nat} (h : offset < bytes.length) :
    let i := Region.instructionAt ⟨base, bytes⟩ offset
    sweep (base + UInt32.ofNat offset) (bytes.drop offset) =
      i :: sweep (base + UInt32.ofNat (offset + i.size)) (bytes.drop (offset + i.size)) := by
  intro i
  have hrest : bytes.drop offset ≠ [] := by
    rw [← List.length_pos_iff, List.length_drop]
    omega
  have hfirst : firstInstruction (base + UInt32.ofNat offset) (bytes.drop offset) = i := by
    unfold firstInstruction
    rw [← decode_drop base hlength (Nat.le_of_lt h)]
    rfl
  rw [sweep_eq _ hrest, hfirst, List.drop_drop, UInt32.add_assoc, ← UInt32.ofNat_add]

/-! ## Instructions that are cut off -/

/-- Whether bytes are the beginning of an instruction and not the whole of it. -/
def IsCutOff (address : UInt32) (bytes : List UInt8) : Prop :=
  ∃ (i : Instruction) (f : Form) (fields : List Nat), i.content = .known f fields ∧
    decode (Region.source ⟨address, i.bytes⟩) address = .ok i ∧
    bytes <+: i.bytes ∧ bytes ≠ i.bytes

/-- Every page byte begins the opcode of some form. -/
theorem Form.exists_on_page :
    ∀ page ∈ pageBytes, ∃ f ∈ all, catalog.withOpcode? f.opcode = some f ∧
      f.opcodeBytes.head? = some page := by
  simp only [withOpcode?_catalog]
  decide +kernel

/-- The beginning of the opcode of a form and of as many bytes as its fields take is
the beginning of an instruction. -/
theorem isCutOff_of_beginning {address : UInt32} {bytes fields : List UInt8} {f : Form}
    (hf : catalog.withOpcode? f.opcode = some f) (hwidth : fields.length = f.fieldWidth)
    (hbytes : bytes <+: f.opcodeBytes ++ fields) (hne : bytes ≠ f.opcodeBytes ++ fields) :
    IsCutOff address bytes := by
  have hlength : (f.opcodeBytes ++ fields).length < 2 ^ 32 := by
    have hle := Form.length_le f (Form.mem_of_withOpcode? hf).1
    rw [Form.length] at hle
    rw [List.length_append, f.length_opcodeBytes, hwidth]
    omega
  have hserves := Region.serves_front address [] hlength
  rw [List.append_nil] at hserves
  exact ⟨_, f, _, rfl, decode_of_serves hf hwidth hserves, hbytes, hne⟩

/-- A region gives every part of it. -/
theorem Region.gives (base : UInt32) {front run : List UInt8} (behind : List UInt8)
    (h : front.length + run.length < 2 ^ 32) :
    (Region.source ⟨base, front ++ run ++ behind⟩).Gives
      (base + UInt32.ofNat front.length) run := by
  obtain ⟨answer, hanswer, hrun⟩ :=
    @Region.serves base front run behind h [] run [] (by simp) run.length rfl
  rw [List.length_nil, add_ofNat_zero] at hanswer
  exact ⟨answer, hanswer, hrun⟩

/-- Reading goes on behind an opcode. -/
theorem decode_of_readsOpcode {source : ByteSource} {address : UInt32} {opcode : List UInt8}
    (h : ReadsOpcode source address opcode) {i : Instruction}
    (hi : (Instruction.readBehind address opcode).run source = .ok i) :
    decode source address = .ok i := by
  rw [decode, mapError_eq_ok, Instruction.read]
  cases h with
  | one b hb h =>
    obtain ⟨first, hfirst, hbyte⟩ : ∃ first, source address 1 = some first ∧
      first.toList = [b] := h
    rw [Reading.run_fetch hfirst, getElem_of_toList Nat.one_pos hbyte, hb,
      if_neg Bool.false_ne_true]
    exact hi
  | two page b hpage h h' =>
    obtain ⟨first, hfirst, hbyte⟩ : ∃ first, source address 1 = some first ∧
      first.toList = [page] := h
    obtain ⟨second, hsecond, hbyte'⟩ : ∃ second, source (address + 1) 1 = some second ∧
      second.toList = [b] := h'
    rw [Reading.run_fetch hfirst, getElem_of_toList Nat.one_pos hbyte, hpage, if_pos rfl,
      Reading.run_fetch hsecond, getElem_of_toList Nat.one_pos hbyte']
    exact hi

/-- Behind an opcode that is there, an instruction is there or is cut off. -/
theorem decode_or_isCutOff_of_opcode {address : UInt32} {opcode rest : List UInt8}
    (h : ReadsOpcode (Region.source ⟨address, opcode ++ rest⟩) address opcode) :
    (∃ i, decode (Region.source ⟨address, opcode ++ rest⟩) address = .ok i) ∨
      IsCutOff address (opcode ++ rest) := by
  cases hfound : catalog.withOpcode? (opcodeKey opcode) with
  | none =>
    refine Or.inl ⟨⟨address, opcode, .unknown⟩, decode_of_readsOpcode h ?_⟩
    rw [Instruction.readBehind, hfound]
    rfl
  | some f =>
    have hkey := (Form.mem_of_withOpcode? hfound).2
    have hopcode := opcodeBytes_of_readsOpcode h hkey
    have hf : catalog.withOpcode? f.opcode = some f := by rw [hkey, hfound]
    have hle := Form.length_le f (Form.mem_of_withOpcode? hf).1
    have hlength := f.length_opcodeBytes
    rw [Form.length] at hle
    rw [hopcode] at hlength
    by_cases henough : f.fieldWidth ≤ rest.length
    · refine Or.inl ⟨_, decode_of_serves hf (List.length_take_of_le henough) ?_⟩
      have hsplit : opcode ++ rest =
          (opcode ++ rest.take f.fieldWidth) ++ rest.drop f.fieldWidth := by
        rw [List.append_assoc, List.take_append_drop]
      rw [hopcode, hsplit]
      refine Region.serves_front address _ ?_
      rw [List.length_append, List.length_take]
      omega
    · -- zeros do for the bytes that are missing
      have hwidth : (rest ++ List.replicate (f.fieldWidth - rest.length) 0).length =
          f.fieldWidth := by
        rw [List.length_append, List.length_replicate]
        omega
      refine Or.inr (isCutOff_of_beginning hf hwidth ?_ ?_)
      · rw [hopcode, ← List.append_assoc]
        exact List.prefix_append _ _
      · intro heq
        have hcount := congrArg List.length heq
        rw [hopcode, List.length_append, List.length_append, hwidth] at hcount
        omega

/-- Wherever bytes are left, an instruction is there or is cut off. -/
theorem decode_or_isCutOff (address : UInt32) {bytes : List UInt8} (hbytes : bytes ≠ []) :
    (∃ i, decode (Region.source ⟨address, bytes⟩) address = .ok i) ∨ IsCutOff address bytes := by
  obtain ⟨b, rest, rfl⟩ := List.exists_cons_of_ne_nil hbytes
  have hfirst : (Region.source ⟨address, b :: rest⟩).Gives address [b] := by
    have hgives := @Region.gives address [] [b] rest (by simp)
    rw [List.length_nil, add_ofNat_zero] at hgives
    exact hgives
  cases hpage : isPageByte b with
  | false => exact decode_or_isCutOff_of_opcode (.one b hpage hfirst)
  | true =>
    cases rest with
    | nil =>
      have hmem : b ∈ pageBytes := List.contains_iff_mem.mp hpage
      obtain ⟨f, hmem, hf, hhead⟩ := Form.exists_on_page b hmem
      have hlong : f.opcodeBytes.length = 2 := by
        have hpage' := Form.pageByte_opcode f hmem
        rw [hhead, Option.map_some, hpage] at hpage'
        exact beq_iff_eq.mp (Option.some.inj hpage').symm
      obtain ⟨second, hsecond⟩ := List.head?_eq_some_iff.mp hhead
      refine Or.inr (@isCutOff_of_beginning address [b] (List.replicate f.fieldWidth 0) f hf
        List.length_replicate ?_ ?_)
      · rw [hsecond]
        exact ⟨_, rfl⟩
      · intro heq
        have hcount := congrArg List.length heq
        rw [List.length_append, hlong, List.length_singleton] at hcount
        omega
    | cons b' rest =>
      have hsecond : (Region.source ⟨address, b :: b' :: rest⟩).Gives (address + 1) [b'] :=
        @Region.gives address [b] [b'] rest (by simp)
      exact @decode_or_isCutOff_of_opcode address [b, b'] rest (.two b b' hpage hfirst hsecond)

/-- Bytes that are cut off are the beginning of an instruction, and nothing can be
decoded from them. -/
theorem isCutOff_iff {address : UInt32} {bytes : List UInt8} (hbytes : bytes ≠ []) :
    IsCutOff address bytes ↔
      ∀ i, decode (Region.source ⟨address, bytes⟩) address ≠ .ok i := by
  constructor
  · rintro ⟨whole, -, -, -, hwhole, ⟨missing, hmissing⟩, hne⟩ i hi
    -- with the missing bytes it would be the same instruction
    have hi' := decode_append hi missing
    rw [hmissing, hwhole] at hi'
    obtain rfl := Except.ok.inj hi'
    have htake := (take_of_decode hi).1
    have hlong := congrArg List.length htake
    rw [List.length_take, Instruction.size, ← hmissing, List.length_append] at hlong
    rw [Instruction.size, List.take_of_length_le (by rw [← hmissing, List.length_append]; omega)]
      at htake
    exact hne htake
  · intro hnone
    rcases decode_or_isCutOff address hbytes with ⟨i, hi⟩ | hcut
    · exact absurd hi (hnone i)
    · exact hcut

/-- An instruction is as long as its form says. -/
theorem size_of_decode {source : ByteSource} {address : UInt32} {i : Instruction} {f : Form}
    {fields : List Nat} (h : decode source address = .ok i) (hi : i.content = .known f fields) :
    f ∈ Form.all ∧ i.size = f.length := by
  obtain ⟨opcode, hopcode, h⟩ := exists_readsOpcode h
  rcases readBehind_cases h with rfl | ⟨g, bytes, hg, hlength, rfl, -⟩
  · cases hi
  · obtain ⟨rfl, -⟩ := Content.known.inj hi
    obtain ⟨hmem, hkey⟩ := Form.mem_of_withOpcode? hg
    refine ⟨hmem, ?_⟩
    rw [Form.length, ← g.length_opcodeBytes, opcodeBytes_of_readsOpcode hopcode hkey, ← hlength]
    exact List.length_append

/-- What is cut off has at most four bytes. -/
theorem length_of_isCutOff {address : UInt32} {bytes : List UInt8}
    (h : IsCutOff address bytes) : bytes.length ≤ 4 := by
  obtain ⟨i, f, fields, hcontent, hdecode, hpre, hne⟩ := h
  obtain ⟨hmem, hsize⟩ := size_of_decode hdecode hcontent
  have hle := Form.length_le f hmem
  have hlt : bytes.length < i.size := by
    refine Nat.lt_of_le_of_ne hpre.length_le fun heq => hne ?_
    exact hpre.eq_of_length heq
  omega

/-! ## The first item -/

/-- An instruction stands where it was decoded. -/
theorem address_of_decode {source : ByteSource} {address : UInt32} {i : Instruction}
    (h : decode source address = .ok i) : i.address = address := by
  obtain ⟨opcode, -, h⟩ := exists_readsOpcode h
  rcases readBehind_cases h with rfl | ⟨f, fields, -, -, rfl, -⟩ <;> rfl

/-- The first item is decoded, or all bytes that are left are cut off. -/
theorem firstInstruction_cases (address : UInt32) {bytes : List UInt8} (hbytes : bytes ≠ []) :
    (decode (Region.source ⟨address, bytes⟩) address = .ok (firstInstruction address bytes) ∧
        (firstInstruction address bytes).isTruncated = false ∧ ¬IsCutOff address bytes) ∨
      (firstInstruction address bytes = .ofTail address bytes ∧ IsCutOff address bytes) := by
  unfold firstInstruction
  cases hdecode : decode (Region.source ⟨address, bytes⟩) address with
  | ok i =>
    refine Or.inl ⟨rfl, beq_eq_false_iff_ne.mpr (content_of_decode hdecode).1, fun hcut => ?_⟩
    exact (isCutOff_iff hbytes).mp hcut i hdecode
  | error problem =>
    refine Or.inr ⟨rfl, (isCutOff_iff hbytes).mpr fun i hi => ?_⟩
    rw [hdecode] at hi
    cases hi

/-- The first item stands at the address of the bytes. -/
theorem address_firstInstruction (address : UInt32) {bytes : List UInt8} (hbytes : bytes ≠ []) :
    (firstInstruction address bytes).address = address := by
  rcases firstInstruction_cases address hbytes with ⟨hdecode, -, -⟩ | ⟨htail, -⟩
  · exact address_of_decode hdecode
  · rw [htail]
    rfl

/-- The first item is cut off if the bytes are the beginning of an instruction. -/
theorem isTruncated_firstInstruction_iff (address : UInt32) {bytes : List UInt8}
    (hbytes : bytes ≠ []) :
    (firstInstruction address bytes).isTruncated = true ↔ IsCutOff address bytes := by
  rcases firstInstruction_cases address hbytes with ⟨-, hwhole, hcut⟩ | ⟨htail, hcut⟩
  · simp only [hwhole, hcut, Bool.false_eq_true]
  · simp only [htail, hcut, iff_true]
    rfl

/-- Bytes behind an item that is not cut off do not change it. -/
theorem firstInstruction_append {address : UInt32} {bytes : List UInt8} (hbytes : bytes ≠ [])
    (hwhole : (firstInstruction address bytes).isTruncated = false) (behind : List UInt8) :
    firstInstruction address (bytes ++ behind) = firstInstruction address bytes := by
  rcases firstInstruction_cases address hbytes with ⟨hdecode, -, -⟩ | ⟨htail, -⟩
  · rw [firstInstruction, decode_append hdecode behind]
  · rw [htail] at hwhole
    cases hwhole

/-! ## All items -/

/-- An item of a sweep is the first one of the bytes that are left, and the sweep goes
on behind it. -/
theorem item_of_sweep {base : UInt32} {bytes : List UInt8} {front behind : List Instruction}
    {i : Instruction} (h : sweep base bytes = front ++ i :: behind) {offset : Nat}
    (hoffset : (front.map Instruction.size).sum = offset) :
    bytes.drop offset ≠ [] ∧
      i = firstInstruction (base + UInt32.ofNat offset) (bytes.drop offset) ∧
      behind = sweep (base + UInt32.ofNat (offset + i.size)) (bytes.drop (offset + i.size)) := by
  induction front generalizing base bytes offset with
  | nil =>
    obtain rfl : 0 = offset := hoffset
    have hbytes : bytes ≠ [] := by
      rintro rfl
      rw [sweep] at h
      cases h
    rw [sweep_eq base hbytes] at h
    obtain ⟨rfl, rfl⟩ := List.cons.inj h
    rw [add_ofNat_zero, List.drop_zero, Nat.zero_add]
    exact ⟨hbytes, rfl, rfl⟩
  | cons first front ih =>
    have hbytes : bytes ≠ [] := by
      rintro rfl
      rw [sweep] at h
      cases h
    rw [sweep_eq base hbytes] at h
    obtain ⟨hfirst, hrest⟩ := List.cons.inj h
    rw [List.map_cons, List.sum_cons] at hoffset
    rw [hfirst] at hrest
    have hitem := ih hrest rfl
    rw [List.drop_drop, List.drop_drop, UInt32.add_assoc, UInt32.add_assoc, ← UInt32.ofNat_add,
      ← UInt32.ofNat_add, ← Nat.add_assoc, hoffset] at hitem
    exact hitem

/-- Every item has bytes, and was decoded or is cut off. -/
theorem mem_sweep_cases {base : UInt32} {bytes : List UInt8} {i : Instruction}
    (hi : i ∈ sweep base bytes) :
    i.bytes ≠ [] ∧ ((∃ source, decode source i.address = .ok i) ∨
      (i = .ofTail i.address i.bytes ∧ IsCutOff i.address i.bytes)) := by
  obtain ⟨front, behind, hsweep⟩ := List.append_of_mem hi
  obtain ⟨hrest, rfl, -⟩ := item_of_sweep hsweep rfl
  rw [address_firstInstruction _ hrest]
  refine ⟨List.length_pos_iff.mp (take_firstInstruction _ hrest).2, ?_⟩
  rcases firstInstruction_cases (base + UInt32.ofNat (front.map Instruction.size).sum) hrest with
    ⟨hdecode, -, -⟩ | ⟨htail, hcut⟩
  · exact Or.inl ⟨_, hdecode⟩
  · rw [htail]
    exact Or.inr ⟨rfl, hcut⟩

/-- A sweep without an item that is cut off goes on with the bytes behind. -/
theorem sweep_append {base : UInt32} {bytes : List UInt8}
    (hwhole : ∀ i ∈ sweep base bytes, i.isTruncated = false) (behind : List UInt8) :
    sweep base (bytes ++ behind) =
      sweep base bytes ++ sweep (base + UInt32.ofNat bytes.length) behind := by
  induction base, bytes using sweep_induction with
  | nil base =>
    rw [List.nil_append, List.length_nil, add_ofNat_zero, sweep, List.nil_append]
  | cons base bytes hbytes ih =>
    rw [sweep_eq base hbytes, List.forall_mem_cons] at hwhole
    have hfirst := firstInstruction_append hbytes hwhole.1 behind
    have hsize : (firstInstruction base bytes).size ≤ bytes.length := by
      rw [Instruction.size, ← (take_firstInstruction base hbytes).1, List.length_take]
      exact Nat.min_le_right _ _
    rw [sweep_eq base (List.append_ne_nil_of_left_ne_nil hbytes _), hfirst,
      List.drop_append_of_le_length hsize, ih hwhole.2, sweep_eq base hbytes, List.cons_append,
      List.length_drop, UInt32.add_assoc, ← UInt32.ofNat_add, Nat.add_sub_cancel' hsize]

/-- The items of a sweep divide the bytes. Each stands where the one in front of it ends
and is what `decode` finds there among all bytes. Where bytes are left that are only the
beginning of an instruction they are the last item, and have four bytes at most. A sweep
without such an item goes on with the bytes behind as if it began there. -/
theorem sweep_partition (base : UInt32) {bytes : List UInt8} (hlength : bytes.length < 2 ^ 32) :
    ((sweep base bytes).map Instruction.bytes).flatten = bytes ∧
      (∀ front i behind, sweep base bytes = front ++ i :: behind →
        ∀ offset, (front.map Instruction.size).sum = offset →
          i.bytes ≠ [] ∧ i.address = base + UInt32.ofNat offset ∧
          (i.isTruncated = false → decode (Region.source ⟨base, bytes⟩) i.address = .ok i) ∧
          (i.isTruncated = true ↔ IsCutOff i.address (bytes.drop offset)) ∧
          (i.isTruncated = true → behind = [] ∧ i.bytes = bytes.drop offset ∧ i.size ≤ 4)) ∧
      (∀ front behind, bytes = front ++ behind →
        (∀ i ∈ sweep base front, i.isTruncated = false) →
          sweep base bytes =
            sweep base front ++ sweep (base + UInt32.ofNat front.length) behind) := by
  refine ⟨flatten_sweep base bytes, ?_, ?_⟩
  · intro front i behind hsweep offset hoffset
    obtain ⟨hrest, rfl, hbehind⟩ := item_of_sweep hsweep hoffset
    have haddress := address_firstInstruction (base + UInt32.ofNat offset) hrest
    refine ⟨?_, haddress, ?_, ?_, ?_⟩
    · exact List.length_pos_iff.mp (take_firstInstruction _ hrest).2
    · intro hwhole
      rcases firstInstruction_cases (base + UInt32.ofNat offset) hrest with
        ⟨hdecode, -, -⟩ | ⟨htail, -⟩
      · have hinside : offset ≤ bytes.length := by
          rw [← List.length_pos_iff, List.length_drop] at hrest
          omega
        rw [haddress, decode_drop base hlength hinside]
        exact hdecode
      · rw [htail] at hwhole
        cases hwhole
    · rw [haddress]
      exact isTruncated_firstInstruction_iff _ hrest
    · intro htruncated
      rcases firstInstruction_cases (base + UInt32.ofNat offset) hrest with
        ⟨-, hwhole, -⟩ | ⟨htail, hcut⟩
      · rw [hwhole] at htruncated
        cases htruncated
      · rw [htail] at hbehind ⊢
        refine ⟨?_, rfl, length_of_isCutOff hcut⟩
        have hnone : bytes.drop (offset + (Instruction.ofTail (base + UInt32.ofNat offset)
            (bytes.drop offset)).size) = [] := by
          rw [← List.drop_drop]
          exact List.drop_length
        rw [hbehind, hnone, sweep]
  · rintro front behind rfl hwhole
    exact sweep_append hwhole behind

/-- The first four bytes of a bit test with a jump are cut off. -/
theorem sweep_cutOff_btjt (base : UInt32) :
    sweep base [0x72, 0x00, 0x12, 0x34] = [.ofTail base [0x72, 0x00, 0x12, 0x34]] := by
  have hjump : catalog.withOpcode? 0x7200 =
      some ⟨"btjt", [.longMem, .bit 0, .relative], 0x7200⟩ := by
    rw [withOpcode?_catalog]
    decide +kernel
  have hcut : IsCutOff base [0x72, 0x00, 0x12, 0x34] :=
    @isCutOff_of_beginning _ _ [0x12, 0x34, 0x00] ⟨"btjt", [.longMem, .bit 0, .relative], 0x7200⟩
      hjump rfl ⟨[0x00], rfl⟩ (by decide)
  rw [sweep_eq base (List.cons_ne_nil _ _)]
  rcases firstInstruction_cases base (List.cons_ne_nil 0x72 [0x00, 0x12, 0x34]) with
    ⟨-, -, hnot⟩ | ⟨htail, -⟩
  · exact absurd hcut hnot
  · rw [htail]
    show _ :: sweep (base + UInt32.ofNat 4) [] = _
    rw [sweep]

/-- The last address holds a `nop`, and address zero behind it the beginning of a longer
instruction. -/
theorem sweep_partition_around :
    ∃ nop tail, sweep 0xFFFFFFFF [0x9D, 0x72, 0x00, 0x12, 0x34] = [nop, tail] ∧
      decode (Region.source ⟨0xFFFFFFFF, [0x9D, 0x72, 0x00, 0x12, 0x34]⟩) 0xFFFFFFFF = .ok nop ∧
      tail.address = 0 ∧ tail.size = 4 ∧ IsCutOff 0 [0x72, 0x00, 0x12, 0x34] := by
  let nop : Instruction := ⟨0xFFFFFFFF, [0x9D], .known ⟨"nop", [], 0x9D⟩ []⟩
  let tail : Instruction := .ofTail 0 [0x72, 0x00, 0x12, 0x34]
  have hnop : catalog.withOpcode? 0x9D = some ⟨"nop", [], 0x9D⟩ := by
    rw [withOpcode?_catalog]
    decide +kernel
  have hsweep : sweep 0xFFFFFFFF [0x9D, 0x72, 0x00, 0x12, 0x34] = [nop, tail] := by
    have hdecode : decode (Region.source ⟨0xFFFFFFFF, [0x9D, 0x72, 0x00, 0x12, 0x34]⟩)
        0xFFFFFFFF = .ok nop :=
      @decode_of_serves _ _ ⟨"nop", [], 0x9D⟩ hnop [] rfl
        (Region.serves_front 0xFFFFFFFF [0x72, 0x00, 0x12, 0x34] (by decide))
    have hfirst : firstInstruction 0xFFFFFFFF [0x9D, 0x72, 0x00, 0x12, 0x34] = nop := by
      rw [firstInstruction, hdecode]
    have haround : (0xFFFFFFFF : UInt32) + UInt32.ofNat 1 = 0 := by decide
    rw [sweep_eq 0xFFFFFFFF (List.cons_ne_nil _ _), hfirst]
    show nop :: sweep (0xFFFFFFFF + UInt32.ofNat 1) [0x72, 0x00, 0x12, 0x34] = _
    rw [haround, sweep_cutOff_btjt]
  obtain ⟨-, hitems, -⟩ := @sweep_partition 0xFFFFFFFF
    [0x9D, 0x72, 0x00, 0x12, 0x34] (by decide)
  obtain ⟨-, -, hdecode, -, -⟩ := hitems [] nop [tail] hsweep 0 rfl
  obtain ⟨-, haddress, -, hcut, -⟩ := hitems [nop] tail [] hsweep 1 rfl
  exact ⟨nop, tail, hsweep, hdecode rfl, haddress, rfl, hcut.mp rfl⟩

end Stm8
