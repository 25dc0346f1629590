import Stm8.Proofs.Encoding.Layout

/-!
# Patching code

Requests are carried out one after another on the code of a whole program, but each of
them writes only inside the piece of code that it came with. Carried out one after
another (`patch`), requests

> `patch_append_left`: do not touch what stands behind their piece, and
> `patch_append_right`: are, moved behind other code, the requests of a piece that starts
> there.

A request has a number to write (`number?`) as soon as its symbol has a value that leads
to one in the range of its field. If the number is out of range, there is a problem
instead (`problem?`).
-/

namespace Stm8

namespace Relocation

/-! ## One request -/

/-- The field of the request lies inside code of this length. -/
def FitsIn (r : Relocation) (length : Nat) : Prop :=
  r.offset + r.kind.size ≤ length

/-- The number that the request writes into code that starts at `base`, if its symbol
has a value and the number is in range. -/
def number? (r : Relocation) (base : UInt32) (value? : String → Option Int) : Option Int :=
  match value? r.symbol with
  | none => none
  | some target =>
    let v := r.value base target
    if v < r.kind.range.1 || r.kind.range.2 < v then none else some v

/-- What the request leads to instead, if the number is out of range. -/
def problem? (r : Relocation) (base : UInt32) (value? : String → Option Int) : Option Problem :=
  match value? r.symbol with
  | none => none
  | some target =>
    let v := r.value base target
    if v < r.kind.range.1 || r.kind.range.2 < v then some (r.rangeProblem v) else none

/-- A request for a field inside the code writes its number, or reports its problem and
writes nothing. -/
theorem apply_cases {r : Relocation} {code : List UInt8} (h : r.FitsIn code.length)
    {base : UInt32} {value? : String → Option Int} {target : Int}
    (htarget : value? r.symbol = some target) :
    (∃ v, r.number? base value? = some v ∧ r.problem? base value? = none ∧
        r.apply code base target = (r.write code v, none)) ∨
      ∃ problem, r.number? base value? = none ∧ r.problem? base value? = some problem ∧
        r.apply code base target = (code, some problem) := by
  have hinside : ¬ code.length < r.offset + r.kind.size := Nat.not_lt.mpr h
  unfold number? problem? apply
  rw [htarget]
  dsimp only
  rw [if_neg hinside]
  by_cases hrange : (r.value base target < r.kind.range.1 ||
      r.kind.range.2 < r.value base target) = true
  · rw [if_pos hrange, if_pos hrange, if_pos hrange]
    exact Or.inr ⟨_, rfl, rfl, rfl⟩
  · rw [if_neg hrange, if_neg hrange, if_neg hrange]
    exact Or.inl ⟨_, rfl, rfl, rfl⟩

/-- A request has a number to write if its symbol has a value and there is no problem. -/
theorem isSome_number?_iff {r : Relocation} {base : UInt32} {value? : String → Option Int} :
    (r.number? base value?).isSome = true ↔
      value? r.symbol ≠ none ∧ r.problem? base value? = none := by
  unfold number? problem?
  cases value? r.symbol with
  | none => simp
  | some target =>
    dsimp only
    split <;> simp

theorem write_of_ne_bitNumber {r : Relocation} (h : r.kind ≠ .bitNumber) (code : List UInt8)
    (v : Int) :
    r.write code v =
      code.take r.offset ++ bigEndian r.kind.size v ++ code.drop (r.offset + r.kind.size) := by
  unfold write
  cases hkind : r.kind with
  | bitNumber => exact absurd hkind h
  | _ => rfl

theorem write_of_bitNumber {r : Relocation} (h : r.kind = .bitNumber) (code : List UInt8)
    (v : Int) : r.write code v = code.modify r.offset (· + 2 * UInt8.ofInt v) := by
  unfold write
  rw [h]

/-- A request leaves as many bytes as there are. -/
theorem length_write {r : Relocation} {code : List UInt8} (h : r.FitsIn code.length) (v : Int) :
    (r.write code v).length = code.length := by
  unfold FitsIn at h
  by_cases hkind : r.kind = .bitNumber
  · rw [write_of_bitNumber hkind, List.length_modify]
  · rw [write_of_ne_bitNumber hkind, List.length_append, List.length_append, List.length_take,
      List.length_drop, length_bigEndian]
    omega

/-- A request does not touch what stands behind its piece. -/
theorem write_append_left {r : Relocation} {code : List UInt8} (h : r.FitsIn code.length)
    (behind : List UInt8) (v : Int) : r.write (code ++ behind) v = r.write code v ++ behind := by
  unfold FitsIn at h
  by_cases hkind : r.kind = .bitNumber
  · rw [hkind] at h
    rw [write_of_bitNumber hkind, write_of_bitNumber hkind,
      Encoding.modify_append_left (show r.offset + 1 ≤ code.length from h)]
  · rw [write_of_ne_bitNumber hkind, write_of_ne_bitNumber hkind,
      List.take_append_of_le_length (by omega), List.drop_append_of_le_length h]
    simp only [List.append_assoc]

theorem modify_append_right (f : UInt8 → UInt8) (i : Nat) (code : List UInt8) :
    ∀ front : List UInt8, (front ++ code).modify (front.length + i) f = front ++ code.modify i f
  | [] => by rw [List.length_nil, Nat.zero_add]; rfl
  | b :: front => by
    rw [List.length_cons, Nat.add_right_comm, List.cons_append, List.modify_succ_cons,
      modify_append_right f i code front]
    rfl

/-- A request that is moved on writes as much further behind. -/
theorem write_append_right (r : Relocation) (front code : List UInt8) (v : Int) :
    (r.shift front.length).write (front ++ code) v = front ++ r.write code v := by
  by_cases hkind : r.kind = .bitNumber
  · rw [write_of_bitNumber hkind, write_of_bitNumber (r := r.shift front.length) hkind]
    exact modify_append_right _ r.offset code front
  · rw [write_of_ne_bitNumber hkind, write_of_ne_bitNumber (r := r.shift front.length) hkind]
    show (front ++ code).take (front.length + r.offset) ++ bigEndian r.kind.size v ++
      (front ++ code).drop (front.length + r.offset + r.kind.size) = _
    rw [Nat.add_assoc, List.take_length_add_append, List.drop_length_add_append]
    simp only [List.append_assoc]

@[simp] theorem shift_zero (r : Relocation) : r.shift 0 = r := by
  rw [shift, Nat.zero_add]

theorem shift_shift (r : Relocation) (m n : Nat) : (r.shift m).shift n = r.shift (n + m) := by
  simp [shift, Nat.add_assoc]

/-! ## All requests of a piece -/

/-- The code of a piece after its requests have been carried out, where the program
starts at `base` and the piece stands behind `start` bytes of it. -/
def patch (base : UInt32) (value? : String → Option Int) (start : Nat) (rs : List Relocation)
    (code : List UInt8) : List UInt8 :=
  rs.foldl (fun code r =>
    match (r.shift start).number? base value? with
    | some v => r.write code v
    | none => code) code

section

variable {base : UInt32} {value? : String → Option Int}

theorem patch_cons (start : Nat) (r : Relocation) (rs : List Relocation) (code : List UInt8) :
    patch base value? start (r :: rs) code =
      patch base value? start rs
        (match (r.shift start).number? base value? with
        | some v => r.write code v
        | none => code) := rfl

theorem patch_append (start : Nat) (rs rs' : List Relocation) (code : List UInt8) :
    patch base value? start (rs ++ rs') code =
      patch base value? start rs' (patch base value? start rs code) :=
  List.foldl_append

/-- Requests leave as many bytes as there are. -/
theorem length_patch {start : Nat} {rs : List Relocation} :
    ∀ {code : List UInt8}, (∀ r ∈ rs, r.FitsIn code.length) →
      (patch base value? start rs code).length = code.length := by
  induction rs with
  | nil => intro code _; rfl
  | cons r rs ih =>
    intro code h
    rw [List.forall_mem_cons] at h
    rw [patch_cons]
    cases hv : (r.shift start).number? base value? with
    | none => exact ih h.2
    | some v =>
      have hlength := length_write h.1 v
      rw [← hlength] at h
      rw [ih h.2, hlength]

/-- Requests do not touch what stands behind their piece. -/
theorem patch_append_left {start : Nat} {rs : List Relocation} (behind : List UInt8) :
    ∀ {code : List UInt8}, (∀ r ∈ rs, r.FitsIn code.length) →
      patch base value? start rs (code ++ behind) =
        patch base value? start rs code ++ behind := by
  induction rs with
  | nil => intro code _; rfl
  | cons r rs ih =>
    intro code h
    rw [List.forall_mem_cons] at h
    rw [patch_cons, patch_cons]
    cases hv : (r.shift start).number? base value? with
    | none => exact ih h.2
    | some v =>
      have hlength := length_write h.1 v
      show patch base value? start rs (r.write (code ++ behind) v) = _
      rw [write_append_left h.1]
      rw [← hlength] at h
      exact ih h.2

/-- Requests of a piece that stands further behind are carried out there. -/
theorem patch_append_right (start : Nat) (rs : List Relocation) (front : List UInt8) :
    ∀ code : List UInt8,
      patch base value? start (rs.map (·.shift front.length)) (front ++ code) =
        front ++ patch base value? (start + front.length) rs code := by
  induction rs with
  | nil => intro code; rfl
  | cons r rs ih =>
    intro code
    rw [List.map_cons, patch_cons, patch_cons, shift_shift]
    cases hv : (r.shift (start + front.length)).number? base value? with
    | none => exact ih code
    | some v =>
      show patch base value? start _ ((r.shift front.length).write (front ++ code) v) = _
      rw [write_append_right]
      exact ih _

end

end Relocation

end Stm8
