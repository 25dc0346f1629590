import Stm8.Instruction.Printer
import Stm8.Proofs.Instruction.Decoded

/-!
# What decoding asks for

To decode an instruction is to ask a source for some bytes. This module says which ones
(`Instruction.IsFetched`): a first byte, another one if the first selects an opcode page,
and all operand fields at once if a form has the opcode that was read. Whatever the source
answers, a decoding is one of six things (`read_outcome`), and everything else follows from
that: a refusal is the end, and the bytes of an instruction are the answers one behind the
other.

> `decode_exact`: a decoding asks for these bytes and for no others, and a source that
> answers them in the same way, whatever it says elsewhere, leads to the same result. Names
> only show in the texts of the operands and at the target of a branch.
-/

namespace Stm8

/-! ## Requests and their answers -/

namespace Reading

variable {α : Type} {source : ByteSource}

/-- A request is answered exactly if the source does not refuse it. -/
theorem answered_of_mem {r : Reading α} {q : Request × Bool} (hq : q ∈ r.requests source) :
    q.2 = (source q.1.address q.1.length).isSome := by
  induction r with
  | done result => cases hq
  | fetch address n next ih =>
    rw [requests] at hq
    cases hanswer : source address n with
    | none =>
      rw [hanswer] at hq
      obtain rfl := List.mem_singleton.mp hq
      exact (congrArg Option.isSome hanswer).symm
    | some answer =>
      rw [hanswer] at hq
      rcases List.mem_cons.mp hq with rfl | hq
      · exact (congrArg Option.isSome hanswer).symm
      · exact ih answer hq

/-- Reading goes on as long as requests are answered. -/
theorem answered_of_mem_dropLast {r : Reading α} {q : Request × Bool}
    (hq : q ∈ (r.requests source).dropLast) : q.2 = true := by
  induction r with
  | done result => cases hq
  | fetch address n next ih =>
    rw [requests] at hq
    cases hanswer : source address n with
    | none =>
      rw [hanswer] at hq
      cases hq
    | some answer =>
      rw [hanswer] at hq
      dsimp only at hq
      cases hrest : (next answer).requests source with
      | nil =>
        rw [hrest] at hq
        cases hq
      | cons p rest =>
        rw [hrest, List.dropLast_cons_cons] at hq
        rcases List.mem_cons.mp hq with rfl | hq
        · rfl
        · exact ih answer (hrest ▸ hq)

/-- Reading fails exactly if the last request is refused, and with this request. -/
theorem run_eq_error_iff {r : Reading α} {q : Request} :
    r.run source = .error q ↔ (r.requests source).getLast? = some (q, false) := by
  induction r with
  | done result =>
    constructor
    · intro h
      cases h
    · intro h
      cases h
  | fetch address n next ih =>
    rw [run, requests]
    cases hanswer : source address n with
    | none =>
      constructor
      · intro h
        rw [← Except.error.inj h]
        rfl
      · intro h
        exact congrArg Except.error (Prod.mk.inj (Option.some.inj h)).1
    | some answer =>
      dsimp only
      rw [ih answer, List.getLast?_cons]
      cases (next answer).requests source |>.getLast? with
      | none =>
        constructor
        · intro h
          cases h
        · intro h
          cases h
      | some p => rfl

/-- Reading succeeds exactly if all requests are answered. -/
theorem exists_run_iff {r : Reading α} :
    (∃ result, r.run source = .ok result) ↔ ∀ q ∈ r.requests source, q.2 = true := by
  induction r with
  | done result => exact ⟨fun _ q hq => absurd hq (List.not_mem_nil), fun _ => ⟨result, rfl⟩⟩
  | fetch address n next ih =>
    rw [run, requests]
    cases hanswer : source address n with
    | none =>
      constructor
      · rintro ⟨result, h⟩
        cases h
      · intro h
        cases h _ (List.mem_singleton_self _)
    | some answer =>
      dsimp only
      rw [ih answer, List.forall_mem_cons]
      exact ⟨fun h => ⟨rfl, h⟩, fun h => h.2⟩

end Reading

namespace ByteSource

/-- The bytes that a source answers; none if it refuses. -/
def answerTo (source : ByteSource) (q : Request) : List UInt8 :=
  match source q.address q.length with
  | some answer => answer.toList
  | none => []

variable {source : ByteSource} {address : UInt32}

theorem answerTo_of_gives {bytes : List UInt8} (h : source.Gives address bytes) {n : Nat}
    (hn : bytes.length = n) : source.answerTo ⟨address, n⟩ = bytes := by
  subst hn
  obtain ⟨answer, hanswer, hbytes⟩ := h
  unfold answerTo
  rw [hanswer]
  exact hbytes

/-- A source has one answer to a request. -/
theorem Gives.unique {bytes bytes' : List UInt8} (h : source.Gives address bytes)
    (h' : source.Gives address bytes') (hlength : bytes.length = bytes'.length) :
    bytes = bytes' := by
  rw [← answerTo_of_gives h hlength, answerTo_of_gives h' rfl]

theorem Gives.unique_byte {b b' : UInt8} (h : source.Gives address [b])
    (h' : source.Gives address [b']) : b = b' :=
  (List.cons.inj (h.unique h' rfl)).1

theorem Gives.ne_none {bytes : List UInt8} (h : source.Gives address bytes) {n : Nat}
    (hn : bytes.length = n) : source address n ≠ none := by
  subst hn
  obtain ⟨answer, hanswer, -⟩ := h
  rw [hanswer]
  exact Option.some_ne_none answer

/-- A source gives a byte if it does not refuse to. -/
theorem gives_first {n : Nat} {answer : Vector UInt8 n} (h : source address n = some answer)
    (hpos : 0 < n) (hn : n = 1) : source.Gives address [answer[0]] := by
  subst hn
  obtain ⟨b, hb⟩ := exists_toList_eq answer
  have hgives := gives_of_answer h
  rw [hb] at hgives
  rw [getElem_of_toList hpos hb]
  exact hgives

end ByteSource

/-- Each request begins where the one before it ends, the first one at `address`;
addresses wrap. -/
def AreContiguous : UInt32 → List Request → Prop
  | _, [] => True
  | address, q :: rest =>
    q.address = address ∧ AreContiguous (address + UInt32.ofNat q.length) rest

/-! ## The opcode -/

section

variable {source : ByteSource} {address : UInt32} {opcode : List UInt8}

/-- No two opcodes are read at one place. -/
theorem ReadsOpcode.unique {opcode' : List UInt8} (h : ReadsOpcode source address opcode)
    (h' : ReadsOpcode source address opcode') : opcode = opcode' := by
  cases h with
  | one b hpage hb =>
    cases h' with
    | one b' _ hb' => rw [hb.unique_byte hb']
    | two page _ hpage' hb' _ =>
      rw [hb.unique_byte hb', hpage'] at hpage
      cases hpage
  | two page b hpage hb hsecond =>
    cases h' with
    | one b' hpage' hb' =>
      rw [hb.unique_byte hb', hpage'] at hpage
      cases hpage
    | two page' b' _ hb' hsecond' => rw [hb.unique_byte hb', hsecond.unique_byte hsecond']

theorem ReadsOpcode.first_ne_none (h : ReadsOpcode source address opcode) :
    source address 1 ≠ none := by
  cases h with
  | one b _ hb => exact hb.ne_none rfl
  | two page b _ hb _ => exact hb.ne_none rfl

/-- Behind a byte that selects a page, an opcode goes on. -/
theorem ReadsOpcode.second_ne_none (h : ReadsOpcode source address opcode) {page : UInt8}
    (hfirst : source.Gives address [page]) (hpage : isPageByte page = true) :
    source (address + 1) 1 ≠ none := by
  cases h with
  | one b hb hgives =>
    rw [hgives.unique_byte hfirst, hpage] at hb
    cases hb
  | two page' b _ _ hsecond => exact hsecond.ne_none rfl

/-- The requests that bring in the bytes of an opcode. -/
def opcodeRequests (address : UInt32) (opcode : List UInt8) : List Request :=
  ⟨address, 1⟩ :: if opcode.length = 2 then [⟨address + 1, 1⟩] else []

@[simp] theorem opcodeRequests_one (b : UInt8) :
    opcodeRequests address [b] = [⟨address, 1⟩] := rfl

@[simp] theorem opcodeRequests_two (page b : UInt8) :
    opcodeRequests address [page, b] = [⟨address, 1⟩, ⟨address + 1, 1⟩] := rfl

/-- The request for another byte of the opcode: there is one if the first byte selects an
opcode page. -/
def AsksForSecond (source : ByteSource) (address : UInt32) (q : Request) : Prop :=
  q = ⟨address + 1, 1⟩ ∧ ∃ b, source.Gives address [b] ∧ isPageByte b = true

/-- The request for the operand fields: there is one if a form has the opcode that was
read, and has fields. -/
def AsksForFields (source : ByteSource) (address : UInt32) (q : Request) : Prop :=
  ∃ opcode f, ReadsOpcode source address opcode ∧
    Form.all.find? (·.opcode == opcodeKey opcode) = some f ∧ 0 < f.fieldWidth ∧
    q = ⟨address + UInt32.ofNat opcode.length, f.fieldWidth⟩

theorem ReadsOpcode.exists_second (h : ReadsOpcode source address opcode) :
    ∃ second : Option Request, opcodeRequests address opcode = ⟨address, 1⟩ :: second.toList ∧
      ∀ q, second = some q ↔ AsksForSecond source address q := by
  cases h with
  | one b hpage hb =>
    refine ⟨none, rfl, fun q => iff_of_false (nomatch ·) ?_⟩
    rintro ⟨-, b', hb', hpage'⟩
    rw [hb.unique_byte hb', hpage'] at hpage
    cases hpage
  | two page b hpage hb hsecond =>
    refine ⟨some ⟨address + 1, 1⟩, rfl, fun q => ⟨fun hq => ?_, fun hq => ?_⟩⟩
    · exact ⟨(Option.some.inj hq).symm, page, hb, hpage⟩
    · rw [hq.1]

/-- The fields are those of the first form with the opcode. -/
theorem ReadsOpcode.asksForFields_iff (h : ReadsOpcode source address opcode) {q : Request} :
    AsksForFields source address q ↔
      ∃ f, catalog.withOpcode? (opcodeKey opcode) = some f ∧ 0 < f.fieldWidth ∧
        q = ⟨address + UInt32.ofNat opcode.length, f.fieldWidth⟩ := by
  rw [withOpcode?_catalog]
  constructor
  · rintro ⟨opcode', f, h', hf, hpos, hq⟩
    rw [h'.unique h] at hf hq
    exact ⟨f, hf, hpos, hq⟩
  · rintro ⟨f, hf, hpos, hq⟩
    exact ⟨opcode, f, h, hf, hpos, hq⟩

/-- The bytes of an opcode are the answers to the requests for it. -/
theorem ReadsOpcode.flatMap_answerTo (h : ReadsOpcode source address opcode) :
    (opcodeRequests address opcode).flatMap source.answerTo = opcode := by
  cases h with
  | one b _ hb =>
    rw [opcodeRequests_one, List.flatMap_singleton]
    exact ByteSource.answerTo_of_gives hb rfl
  | two page b _ hb hsecond =>
    rw [opcodeRequests_two, List.flatMap_cons, List.flatMap_singleton,
      ByteSource.answerTo_of_gives (n := 1) hb rfl,
      ByteSource.answerTo_of_gives (n := 1) hsecond rfl]
    rfl

/-- What is asked for behind an opcode continues the requests for it. -/
theorem ReadsOpcode.areContiguous (h : ReadsOpcode source address opcode) {rest : List Request}
    (hrest : AreContiguous (address + UInt32.ofNat opcode.length) rest) :
    AreContiguous address (opcodeRequests address opcode ++ rest) := by
  cases h with
  | one b _ _ => exact ⟨rfl, hrest⟩
  | two page b _ _ _ =>
    refine ⟨rfl, rfl, ?_⟩
    rw [UInt32.add_assoc]
    exact hrest

/-! ## What can happen -/

/-- What is asked for when an instruction is read, and what comes of it. -/
inductive ReadOutcome (source : ByteSource) (address : UInt32) :
    List (Request × Bool) → Except Request Instruction → Prop where
  /-- There is no first byte. -/
  | noFirst (h : source address 1 = none) :
    ReadOutcome source address [(⟨address, 1⟩, false)] (.error ⟨address, 1⟩)
  /-- There is no byte behind one that selects an opcode page. -/
  | noSecond (page : UInt8) (hpage : isPageByte page = true) (hfirst : source.Gives address [page])
    (h : source (address + 1) 1 = none) :
    ReadOutcome source address [(⟨address, 1⟩, true), (⟨address + 1, 1⟩, false)]
      (.error ⟨address + 1, 1⟩)
  /-- No form has the opcode. -/
  | unknown (opcode : List UInt8) (hopcode : ReadsOpcode source address opcode)
    (hkey : catalog.withOpcode? (opcodeKey opcode) = none) :
    ReadOutcome source address ((opcodeRequests address opcode).map (·, true))
      (.ok ⟨address, opcode, .unknown⟩)
  /-- The form of the opcode has no fields. -/
  | bare (opcode : List UInt8) (f : Form) (hopcode : ReadsOpcode source address opcode)
    (hkey : catalog.withOpcode? (opcodeKey opcode) = some f) (hwidth : f.fieldWidth = 0) :
    ReadOutcome source address ((opcodeRequests address opcode).map (·, true))
      (.ok ⟨address, opcode, .known f (f.fields [])⟩)
  /-- The form of the opcode has fields, and they are missing. -/
  | noFields (opcode : List UInt8) (f : Form) (hopcode : ReadsOpcode source address opcode)
    (hkey : catalog.withOpcode? (opcodeKey opcode) = some f) (hwidth : 0 < f.fieldWidth)
    (h : source (address + UInt32.ofNat opcode.length) f.fieldWidth = none) :
    ReadOutcome source address
      ((opcodeRequests address opcode).map (·, true) ++
        [(⟨address + UInt32.ofNat opcode.length, f.fieldWidth⟩, false)])
      (.error ⟨address + UInt32.ofNat opcode.length, f.fieldWidth⟩)
  /-- The form of the opcode has fields, and they are there. -/
  | whole (opcode : List UInt8) (f : Form) (fields : List UInt8)
    (hopcode : ReadsOpcode source address opcode)
    (hkey : catalog.withOpcode? (opcodeKey opcode) = some f) (hwidth : 0 < f.fieldWidth)
    (hlength : fields.length = f.fieldWidth)
    (h : source.Gives (address + UInt32.ofNat opcode.length) fields) :
    ReadOutcome source address
      ((opcodeRequests address opcode).map (·, true) ++
        [(⟨address + UInt32.ofNat opcode.length, f.fieldWidth⟩, true)])
      (.ok ⟨address, opcode ++ fields, .known f (f.fields fields)⟩)

/-- What can happen behind the opcode. -/
theorem readBehind_outcome (h : ReadsOpcode source address opcode) :
    ReadOutcome source address
      ((opcodeRequests address opcode).map (·, true) ++
        (Instruction.readBehind address opcode).requests source)
      ((Instruction.readBehind address opcode).run source) := by
  rw [Instruction.readBehind]
  cases hkey : catalog.withOpcode? (opcodeKey opcode) with
  | none =>
    rw [Instruction.readFields, Reading.requests, Reading.run, List.append_nil]
    exact .unknown opcode h hkey
  | some f =>
    rw [Instruction.readFields]
    by_cases hzero : f.fieldWidth = 0
    · rw [if_pos hzero, Reading.requests, Reading.run, List.append_nil]
      exact .bare opcode f h hkey hzero
    · rw [if_neg hzero, Reading.requests, Reading.run]
      have hpos := Nat.pos_of_ne_zero hzero
      cases hanswer : source (address + UInt32.ofNat opcode.length) f.fieldWidth with
      | none => exact .noFields opcode f h hkey hpos hanswer
      | some answer =>
        exact .whole opcode f answer.toList h hkey hpos Vector.length_toList
          (ByteSource.gives_of_answer hanswer)

/-- What can happen at all. -/
theorem read_outcome (source : ByteSource) (address : UInt32) :
    ReadOutcome source address ((Instruction.read address).requests source)
      ((Instruction.read address).run source) := by
  rw [Instruction.read, Reading.requests, Reading.run]
  cases hfirst : source address 1 with
  | none => exact .noFirst hfirst
  | some first =>
    have hgives := ByteSource.gives_first hfirst Nat.one_pos rfl
    dsimp only
    cases hpage : isPageByte first[0] with
    | false =>
      rw [if_neg Bool.false_ne_true]
      have hbehind := readBehind_outcome (.one _ hpage hgives)
      rw [opcodeRequests_one, List.map_cons, List.map_nil, List.singleton_append] at hbehind
      exact hbehind
    | true =>
      rw [if_pos rfl, Reading.requests, Reading.run]
      cases hsecond : source (address + 1) 1 with
      | none => exact .noSecond _ hpage hgives hsecond
      | some second =>
        have hbehind := readBehind_outcome
          (.two _ _ hpage hgives (ByteSource.gives_first hsecond Nat.one_pos rfl))
        rw [opcodeRequests_two, List.map_cons, List.map_cons, List.map_nil, List.cons_append,
          List.singleton_append] at hbehind
        exact hbehind

end

/-! ## What follows from it -/

section

variable {source : ByteSource} {address : UInt32} {asked : List (Request × Bool)}
  {result : Except Request Instruction}

theorem map_fst_answered (qs : List Request) : (qs.map (·, true)).map Prod.fst = qs := by
  rw [List.map_map]
  exact List.map_id qs

/-- There is a first request, one for another byte of the opcode, and one for the fields;
but only where they are called for. -/
theorem ReadOutcome.exists_requests (h : ReadOutcome source address asked result) :
    ∃ second fields : Option Request,
      asked.map Prod.fst = ⟨address, 1⟩ :: (second.toList ++ fields.toList) ∧
      (∀ q, second = some q ↔ AsksForSecond source address q) ∧
      ∀ q, fields = some q ↔ AsksForFields source address q := by
  cases h with
  | noFirst h =>
    refine ⟨none, none, rfl, fun q => iff_of_false (nomatch ·) ?_,
      fun q => iff_of_false (nomatch ·) ?_⟩
    · rintro ⟨-, b, hb, -⟩
      exact hb.ne_none (n := 1) rfl h
    · rintro ⟨opcode, f, hopcode, -⟩
      exact hopcode.first_ne_none h
  | noSecond page hpage hfirst h =>
    refine ⟨some ⟨address + 1, 1⟩, none, rfl, fun q => ⟨fun hq => ?_, fun hq => ?_⟩,
      fun q => iff_of_false (nomatch ·) ?_⟩
    · exact ⟨(Option.some.inj hq).symm, page, hfirst, hpage⟩
    · rw [hq.1]
    · rintro ⟨opcode, f, hopcode, -⟩
      exact hopcode.second_ne_none hfirst hpage h
  | unknown opcode hopcode hkey =>
    obtain ⟨second, hrequests, hsecond⟩ := hopcode.exists_second
    refine ⟨second, none, by rw [map_fst_answered, hrequests, Option.toList_none, List.append_nil],
      hsecond, fun q => ?_⟩
    rw [hopcode.asksForFields_iff, hkey]
    simp
  | bare opcode f hopcode hkey hwidth =>
    obtain ⟨second, hrequests, hsecond⟩ := hopcode.exists_second
    refine ⟨second, none, by rw [map_fst_answered, hrequests, Option.toList_none, List.append_nil],
      hsecond, fun q => ?_⟩
    rw [hopcode.asksForFields_iff, hkey]
    simp [hwidth]
  | noFields opcode f hopcode hkey hwidth _ =>
    obtain ⟨second, hrequests, hsecond⟩ := hopcode.exists_second
    refine ⟨second, some ⟨address + UInt32.ofNat opcode.length, f.fieldWidth⟩,
      by rw [List.map_append, map_fst_answered, hrequests]; rfl, hsecond, fun q => ?_⟩
    rw [hopcode.asksForFields_iff, hkey]
    simp [hwidth, eq_comm]
  | whole opcode f fields hopcode hkey hwidth _ _ =>
    obtain ⟨second, hrequests, hsecond⟩ := hopcode.exists_second
    refine ⟨second, some ⟨address + UInt32.ofNat opcode.length, f.fieldWidth⟩,
      by rw [List.map_append, map_fst_answered, hrequests]; rfl, hsecond, fun q => ?_⟩
    rw [hopcode.asksForFields_iff, hkey]
    simp [hwidth, eq_comm]

/-- Each request begins where the one before it ends. -/
theorem ReadOutcome.areContiguous (h : ReadOutcome source address asked result) :
    AreContiguous address (asked.map Prod.fst) := by
  cases h with
  | noFirst h => exact ⟨rfl, trivial⟩
  | noSecond page hpage hfirst h => exact ⟨rfl, rfl, trivial⟩
  | unknown opcode hopcode hkey =>
    rw [map_fst_answered, ← List.append_nil (opcodeRequests address opcode)]
    exact hopcode.areContiguous trivial
  | bare opcode f hopcode hkey hwidth =>
    rw [map_fst_answered, ← List.append_nil (opcodeRequests address opcode)]
    exact hopcode.areContiguous trivial
  | noFields opcode f hopcode hkey hwidth h =>
    rw [List.map_append, map_fst_answered]
    exact hopcode.areContiguous ⟨rfl, trivial⟩
  | whole opcode f fields hopcode hkey hwidth hlength h =>
    rw [List.map_append, map_fst_answered]
    exact hopcode.areContiguous ⟨rfl, trivial⟩

/-- What was read begins at the address, and its bytes are the answers in their order. -/
theorem ReadOutcome.bytes_eq {i : Instruction} (h : ReadOutcome source address asked (.ok i)) :
    i.address = address ∧ i.bytes = (asked.map Prod.fst).flatMap source.answerTo := by
  cases h with
  | unknown opcode hopcode hkey =>
    rw [map_fst_answered]
    exact ⟨rfl, hopcode.flatMap_answerTo.symm⟩
  | bare opcode f hopcode hkey hwidth =>
    rw [map_fst_answered]
    exact ⟨rfl, hopcode.flatMap_answerTo.symm⟩
  | whole opcode f fields hopcode hkey hwidth hlength h =>
    rw [List.map_append, map_fst_answered, List.flatMap_append, hopcode.flatMap_answerTo]
    refine ⟨rfl, congrArg (opcode ++ ·) ?_⟩
    exact (List.append_nil _).symm.trans
      (congrArg (· ++ []) (ByteSource.answerTo_of_gives h hlength).symm)

/-- What no form has is an opcode, and nothing is asked for behind it. -/
theorem ReadOutcome.of_unknown {i : Instruction} (h : ReadOutcome source address asked (.ok i))
    (hi : i.isUnknown = true) :
    i.content = .unknown ∧ Form.all.find? (·.opcode == opcodeKey i.bytes) = none ∧
      asked.length = i.size ∧ (i.size = 1 ∨ i.size = 2) := by
  cases h with
  | unknown opcode hopcode hkey =>
    rw [withOpcode?_catalog] at hkey
    refine ⟨rfl, hkey, ?_⟩
    cases hopcode with
    | one b _ _ => exact ⟨rfl, Or.inl rfl⟩
    | two page b _ _ _ => exact ⟨rfl, Or.inr rfl⟩
  | bare opcode f hopcode hkey hwidth => cases hi
  | whole opcode f fields hopcode hkey hwidth hlength h => cases hi

end

/-- How the bytes of an instruction are cut into the slices that hold its numbers. -/
structure Instruction.IsCutInto (i : Instruction) (f : Form) (numbers : List Nat)
    (slices : List (List UInt8)) : Prop where
  /-- No form before it has its opcode. -/
  first : Form.all.find? (·.opcode == f.opcode) = some f
  /-- The opcode stands in front of the slices. -/
  bytes : i.bytes = f.opcodeBytes ++ slices.flatten
  /-- There is one for each field in the order of the fields, and as wide as it. -/
  widths : slices.map List.length = (f.emission f.modes).map Mode.width
  /-- The numbers are those in the slices, in the order as written. -/
  numbers : numbers = f.emission (slices.map readBigEndian)
  /-- The instruction is as long as its form. -/
  size : i.size = f.length
  /-- There is at least a byte, and no instruction is longer than five. -/
  bounds : 1 ≤ f.length ∧ f.length ≤ 5

/-- Bytes can be cut into slices of given widths. -/
theorem exists_slices :
    ∀ (widths : List Nat) (bytes : List UInt8), bytes.length = widths.sum →
      ∃ slices : List (List UInt8), slices.map List.length = widths ∧ slices.flatten = bytes
  | [], bytes, h => ⟨[], rfl, (List.length_eq_zero_iff.mp h).symm⟩
  | width :: widths, bytes, h => by
    rw [List.sum_cons] at h
    obtain ⟨slices, hwidths, hbytes⟩ := exists_slices widths (bytes.drop width)
      (by rw [List.length_drop]; omega)
    refine ⟨bytes.take width :: slices, ?_, ?_⟩
    · rw [List.map_cons, hwidths, List.length_take_of_le (by omega)]
    · rw [List.flatten_cons, hbytes, List.take_append_drop]

/-- An opcode and the bytes of the fields of its form are cut into slices. -/
theorem Instruction.exists_isCutInto {source : ByteSource} {address : UInt32}
    {opcode : List UInt8} {f : Form} (hopcode : ReadsOpcode source address opcode)
    (hkey : catalog.withOpcode? (opcodeKey opcode) = some f) (fields : List UInt8)
    (hlength : fields.length = f.fieldWidth) (content : Content) :
    ∃ slices, Instruction.IsCutInto ⟨address, opcode ++ fields, content⟩ f (f.fields fields)
      slices := by
  obtain ⟨hmem, hopcode'⟩ := Form.mem_of_withOpcode? hkey
  have hbytes := opcodeBytes_of_readsOpcode hopcode hopcode'
  have hwidths : fields.length = ((f.emission f.modes).map Mode.width).sum := by
    rw [hlength, f.map_emission, f.sum_emission]
    rfl
  have hpos := f.opcodeWidth_pos
  obtain ⟨slices, hslices, rfl⟩ := exists_slices _ fields hwidths
  refine ⟨slices, ?_, ?_, hslices, ?_, ?_, ?_, Form.length_le f hmem⟩
  · rw [hopcode', ← withOpcode?_catalog]
    exact hkey
  · rw [hbytes]
  · rw [Form.fields, splitFields_flatten hslices]
  · rw [Form.length, ← hlength, ← f.length_opcodeBytes, hbytes]
    exact List.length_append
  · exact Nat.le_trans hpos (Nat.le_add_right ..)

/-- What has a form is cut into slices. -/
theorem ReadOutcome.of_known {source : ByteSource} {address : UInt32}
    {asked : List (Request × Bool)} {i : Instruction} {f : Form} {numbers : List Nat}
    (h : ReadOutcome source address asked (.ok i)) (hi : i.content = .known f numbers) :
    ∃ slices, i.IsCutInto f numbers slices := by
  cases h with
  | unknown opcode hopcode hkey => cases hi
  | bare opcode g hopcode hkey hwidth =>
    obtain ⟨rfl, rfl⟩ := Content.known.inj hi
    have hcut := Instruction.exists_isCutInto hopcode hkey [] hwidth.symm
    rw [List.append_nil] at hcut
    exact hcut _
  | whole opcode g fields hopcode hkey hwidth hlength h =>
    obtain ⟨rfl, rfl⟩ := Content.known.inj hi
    exact Instruction.exists_isCutInto hopcode hkey fields hlength _

/-! ## What is shown of an instruction -/

/-- An instruction with its text. -/
structure Instruction.Shown where
  /-- The address of the first byte. -/
  address : UInt32
  /-- The number of the opcode. -/
  opcode : UInt16
  /-- The mnemonic. -/
  mnemonic : String
  /-- The operands as text. -/
  operands : List String
  /-- The bytes. -/
  bytes : List UInt8
  /-- The target of a branch, and the name that it has. -/
  target : Option (UInt32 × Option String)
  /-- The form. -/
  form : Option Form
  /-- Whether the end is missing. -/
  truncated : Bool

/-- What is shown of an instruction when addresses have names. -/
def Instruction.shown (i : Instruction) (names : Names) : Shown where
  address := i.address
  opcode := i.opcode
  mnemonic := i.mnemonic
  operands := i.operands names
  bytes := i.bytes
  target := i.target?.map fun target => (target, names target)
  form := i.form?
  truncated := i.isTruncated

/-- All but the texts of the operands and the name of the target. -/
def Instruction.Shown.withoutNames (s : Shown) : Shown :=
  { s with
    operands := s.operands.map fun _ => ""
    target := s.target.map fun target => (target.1, none) }

/-- Names show nowhere else. -/
theorem Instruction.withoutNames_shown (i : Instruction) (names names' : Names) :
    (i.shown names).withoutNames = (i.shown names').withoutNames := by
  have hoperands : (i.operands names).map (fun _ => "") =
      (i.operands names').map fun _ => "" := by
    unfold operands
    cases i.content with
    | known f fields =>
      dsimp only
      rw [List.map_map, List.map_map]
      rfl
    | _ => rfl
  have htarget : (i.target?.map fun target => (target, names target)).map
      (fun target => (target.1, (none : Option String))) =
        (i.target?.map fun target => (target, names' target)).map
          fun target => (target.1, none) := by
    cases i.target? <;> rfl
  unfold shown Shown.withoutNames
  rw [hoperands, htarget]

/-! ## Decoding -/

/-- What decoding asks for, and what it makes of the answers. -/
structure Instruction.IsFetched (source : ByteSource) (address : UInt32)
    (asked : List (Request × Bool)) (result : Except Problem Instruction) : Prop where
  /-- There is a request for the first byte, one for another byte of the opcode if the
  first one selects a page, and one for all fields if a form has the opcode and has
  fields. Each of the last two is only there if something calls for it. -/
  requests : ∃ second fields : Option Request,
    asked.map Prod.fst = ⟨address, 1⟩ :: (second.toList ++ fields.toList) ∧
      (∀ q, second = some q ↔ AsksForSecond source address q) ∧
      ∀ q, fields = some q ↔ AsksForFields source address q
  /-- They follow each other in memory. -/
  contiguous : AreContiguous address (asked.map Prod.fst)
  /-- It is noted of each one whether the source answered it. -/
  answered : ∀ q ∈ asked, q.2 = (source q.1.address q.1.length).isSome
  /-- Nothing is asked for after a refusal. -/
  stops : ∀ q ∈ asked.dropLast, q.2 = true
  /-- Decoding fails exactly with the request that was refused. -/
  fails : ∀ problem, result = .error problem ↔
    ∃ q, asked.getLast? = some (q, false) ∧ problem = .unreadable q.address q.length
  /-- It succeeds exactly if none was refused. -/
  succeeds : (∃ i, result = .ok i) ↔ ∀ q ∈ asked, q.2 = true
  /-- The bytes of an instruction are the answers in their order. -/
  bytes : ∀ i, result = .ok i →
    i.address = address ∧ i.bytes = (asked.map Prod.fst).flatMap source.answerTo
  /-- What no form has is an opcode of one or two bytes, and these were all requests. -/
  unknown : ∀ i, result = .ok i → i.isUnknown = true →
    i.content = .unknown ∧ Form.all.find? (·.opcode == opcodeKey i.bytes) = none ∧
      asked.length = i.size ∧ (i.size = 1 ∨ i.size = 2)
  /-- What has a form is cut into slices for the fields of the form. -/
  known : ∀ i f numbers, result = .ok i → i.content = .known f numbers →
    ∃ slices, i.IsCutInto f numbers slices

theorem decode_eq_error_iff {source : ByteSource} {address : UInt32} {problem : Problem} :
    decode source address = .error problem ↔
      ∃ q, (Instruction.read address).run source = .error q ∧
        problem = .unreadable q.address q.length := by
  unfold decode
  cases (Instruction.read address).run source with
  | ok i =>
    constructor
    · intro h
      cases h
    · rintro ⟨q, h, -⟩
      cases h
  | error q =>
    constructor
    · intro h
      exact ⟨q, rfl, (Except.error.inj h).symm⟩
    · rintro ⟨q', h, rfl⟩
      rw [Except.error.inj h]
      rfl

/-- **Decoding reads exactly what it reports.** Whatever a source answers, decoding asks for
at most three runs of bytes, one behind the other: the first byte, another one for an opcode
page, and all fields. It ends with the first request that is refused, and else finds an
instruction that consists of the answers: an opcode that no form has, or one of the first
form that has it, cut into fields without a byte left or missing. A source that answers
these requests in the same way leads to the same result, and two lists of names to results
that differ in the texts of the operands and in the name of the target only. -/
theorem decode_exact (source : ByteSource) (address : UInt32) :
    Instruction.IsFetched source address ((Instruction.read address).requests source)
        (decode source address) ∧
      ∀ (other : ByteSource) (names names' : Names),
        (∀ q ∈ (Instruction.read address).requests source,
          source q.1.address q.1.length = other q.1.address q.1.length) →
        (decode other address).map (fun i => (i.shown names').withoutNames) =
          (decode source address).map fun i => (i.shown names).withoutNames := by
  have houtcome := read_outcome source address
  have hok : ∀ i, decode source address = .ok i →
      ReadOutcome source address ((Instruction.read address).requests source) (.ok i) := by
    intro i hi
    rw [decode, mapError_eq_ok] at hi
    rw [← hi]
    exact houtcome
  refine ⟨⟨houtcome.exists_requests, houtcome.areContiguous, fun q => Reading.answered_of_mem,
    fun q => Reading.answered_of_mem_dropLast, fun problem => ?_, ?_,
    fun i hi => (hok i hi).bytes_eq, fun i hi => (hok i hi).of_unknown,
    fun i f numbers hi => (hok i hi).of_known⟩, ?_⟩
  · rw [decode_eq_error_iff]
    refine exists_congr fun q => and_congr_left fun _ => Reading.run_eq_error_iff
  · rw [← Reading.exists_run_iff]
    exact exists_congr fun i => mapError_eq_ok
  · intro other names names' hagree
    have hresult : decode other address = decode source address := by
      rw [decode, decode, Reading.run_congr _ hagree]
    rw [hresult]
    exact congrArg (decode source address).map (funext fun i => i.withoutNames_shown names' names)

/-- Behind a page byte at the last address, reading goes on at the first one. -/
example :
    (Instruction.read 0xFFFFFFFF).requests (Region.source ⟨0xFFFFFFFF, [pageY]⟩) =
      [(⟨0xFFFFFFFF, 1⟩, true), (⟨0, 1⟩, false)] := by
  decide +kernel

end Stm8
