import Stm8.Proofs.Encoding.Settling

/-!
# Pending requests

Requests that have not been carried out yet are for fields inside the code that do not
overlap, and in each field stands filler (`ArePending`). A bit number has no field of its
own: it is added to a byte of an opcode.

> `ArePending.append`: pending requests stay so behind other code and in front of it.
> `patch_perm`: requests whose fields do not overlap can be carried out in any order.
-/

namespace Stm8

namespace Relocation

/-! ## Fields that do not overlap -/

/-- The bytes in the field of the request. -/
def field (r : Relocation) (code : List UInt8) : List UInt8 :=
  (code.drop r.offset).take r.kind.size

/-- Whether the fields of two requests do not overlap. -/
def IsApart (r s : Relocation) : Prop :=
  r.offset + r.kind.size ≤ s.offset ∨ s.offset + s.kind.size ≤ r.offset

theorem IsApart.symm {r s : Relocation} (h : r.IsApart s) : s.IsApart r :=
  Or.symm h

theorem isApart_shift {r s : Relocation} (h : r.IsApart s) (n : Nat) :
    (r.shift n).IsApart (s.shift n) := by
  unfold IsApart at *
  show n + r.offset + r.kind.size ≤ n + s.offset ∨ n + s.offset + s.kind.size ≤ n + r.offset
  omega

/-- A request for a field inside the code in front is apart from all that were moved
behind it. -/
theorem isApart_shift_of_fitsIn {r : Relocation} {n : Nat} (h : r.FitsIn n) (s : Relocation) :
    r.IsApart (s.shift n) := by
  unfold FitsIn at h
  refine Or.inl ?_
  show r.offset + r.kind.size ≤ n + s.offset
  omega

theorem field_append_left {r : Relocation} {code : List UInt8} (h : r.FitsIn code.length)
    (behind : List UInt8) : r.field (code ++ behind) = r.field code := by
  unfold FitsIn at h
  unfold field
  rw [List.drop_append_of_le_length (by omega), List.take_append_of_le_length]
  rw [List.length_drop]
  omega

theorem field_append_right (r : Relocation) (front code : List UInt8) :
    (r.shift front.length).field (front ++ code) = r.field code := by
  show ((front ++ code).drop (front.length + r.offset)).take r.kind.size = _
  rw [List.drop_length_add_append]
  rfl

/-! ## Writing into two fields -/

section

variable {r s : Relocation} {code : List UInt8}

/-- The first of two requests that are apart is for the code in front of the second
one. -/
theorem exists_front (h : r.offset + r.kind.size ≤ s.offset) (hs : s.FitsIn code.length) :
    ∃ front behind s', code = front ++ behind ∧ r.FitsIn front.length ∧
      s = shift s' front.length ∧ s'.FitsIn behind.length := by
  unfold FitsIn at *
  have hlength : (code.take s.offset).length = s.offset := by
    rw [List.length_take]
    omega
  refine ⟨code.take s.offset, code.drop s.offset, { s with offset := 0 },
    (List.take_append_drop s.offset code).symm, ?_, ?_, ?_⟩
  · rw [hlength]
    exact h
  · rw [hlength]
    rfl
  · rw [List.length_drop]
    show 0 + s.kind.size ≤ _
    omega

/-- What is written into a field leaves a later one as it is. -/
theorem write_comm_of_le (h : r.offset + r.kind.size ≤ s.offset) (hs : s.FitsIn code.length)
    (v w : Int) : s.write (r.write code v) w = r.write (s.write code w) v := by
  obtain ⟨front, behind, s', rfl, hr, rfl, -⟩ := exists_front h hs
  have hlength := length_write hr v
  calc (s'.shift front.length).write (r.write (front ++ behind) v) w
      = (s'.shift (r.write front v).length).write (r.write front v ++ behind) w := by
        rw [write_append_left hr, hlength]
    _ = r.write front v ++ s'.write behind w := write_append_right ..
    _ = r.write (front ++ s'.write behind w) v := (write_append_left hr ..).symm
    _ = r.write ((s'.shift front.length).write (front ++ behind) w) v := by
        rw [write_append_right]

/-- Requests that are apart can change places. -/
theorem write_comm (h : r.IsApart s) (hr : r.FitsIn code.length) (hs : s.FitsIn code.length)
    (v w : Int) : s.write (r.write code v) w = r.write (s.write code w) v := by
  rcases h with h | h
  · exact write_comm_of_le h hs v w
  · exact (write_comm_of_le h hr w v).symm

/-- A request does not touch a field that is apart from its own. -/
theorem field_write (h : r.IsApart s) (hr : r.FitsIn code.length) (hs : s.FitsIn code.length)
    (v : Int) : s.field (r.write code v) = s.field code := by
  rcases h with h | h
  · obtain ⟨front, behind, s', rfl, hr', rfl, -⟩ := exists_front h hs
    have hlength := length_write hr' v
    rw [write_append_left hr', field_append_right, ← hlength, field_append_right]
  · obtain ⟨front, behind, r', rfl, hs', rfl, -⟩ := exists_front h hr
    rw [write_append_right, field_append_left hs', field_append_left hs']

end

/-! ## Carrying out all requests -/

section

variable {base : UInt32} {value? : String → Option Int}

/-- **Requests whose fields do not overlap can be carried out in any order.** -/
theorem patch_perm {rs rs' : List Relocation} (h : rs.Perm rs') :
    ∀ {code : List UInt8}, (∀ r ∈ rs, r.FitsIn code.length) → rs.Pairwise IsApart →
      patch base value? 0 rs code = patch base value? 0 rs' code := by
  induction h with
  | nil => exact fun _ _ => rfl
  | @cons r rs rs' _ ih =>
    intro code hfits hapart
    rw [List.forall_mem_cons] at hfits
    rw [List.pairwise_cons] at hapart
    rw [patch_cons, patch_cons, shift_zero]
    refine ih ?_ hapart.2
    cases r.number? base value? with
    | none => exact hfits.2
    | some v =>
      show ∀ s ∈ rs, s.FitsIn (r.write code v).length
      rw [length_write hfits.1]
      exact hfits.2
  | swap r s rs =>
    intro code hfits hapart
    rw [List.forall_mem_cons, List.forall_mem_cons] at hfits
    rw [List.pairwise_cons, List.forall_mem_cons] at hapart
    obtain ⟨hs, hr, -⟩ := hfits
    rw [patch_cons, patch_cons, patch_cons, patch_cons, shift_zero, shift_zero]
    cases r.number? base value? with
    | none => rfl
    | some v =>
      cases s.number? base value? with
      | none => rfl
      | some w => exact congrArg (patch base value? 0 rs) (write_comm hapart.1.1 hs hr w v)
  | trans h₁ h₂ ih₁ ih₂ =>
    intro code hfits hapart
    rw [ih₁ hfits hapart]
    refine ih₂ (fun r hr => hfits r (h₁.mem_iff.mpr hr)) ?_
    exact h₁.pairwise hapart IsApart.symm

/-- Requests do not touch fields that are apart from theirs. -/
theorem field_patch {s : Relocation} {rs : List Relocation} (hapart : ∀ r ∈ rs, r.IsApart s) :
    ∀ {code : List UInt8}, (∀ r ∈ rs, r.FitsIn code.length) → s.FitsIn code.length →
      s.field (patch base value? 0 rs code) = s.field code := by
  induction rs with
  | nil => exact fun _ _ => rfl
  | cons r rs ih =>
    intro code hfits hs
    rw [List.forall_mem_cons] at hapart hfits
    rw [patch_cons, shift_zero]
    cases hv : r.number? base value? with
    | none => exact ih hapart.2 hfits.2 hs
    | some v =>
      have hlength := length_write hfits.1 v
      show s.field (patch base value? 0 rs (r.write code v)) = _
      rw [ih hapart.2 (by rw [hlength]; exact hfits.2) (by rw [hlength]; exact hs),
        field_write hapart.1 hfits.1 hs]

end

/-! ## Pending requests -/

/-- Whether the requests still wait to be carried out on the code. -/
structure ArePending (rs : List Relocation) (code : List UInt8) : Prop where
  /-- All fields lie inside the code. -/
  inside : ∀ r ∈ rs, r.FitsIn code.length
  /-- No two fields overlap. -/
  apart : rs.Pairwise IsApart
  /-- Fields other than bit numbers are filled up. -/
  filled : ∀ r ∈ rs, r.kind ≠ .bitNumber → r.field code = List.replicate r.kind.size filler

namespace ArePending

theorem nil (code : List UInt8) : ArePending [] code where
  inside := fun _ hr => absurd hr List.not_mem_nil
  apart := List.Pairwise.nil
  filled := fun _ hr => absurd hr List.not_mem_nil

/-- Pending requests stay so behind other code and in front of it. -/
theorem append {rs rs' : List Relocation} {code code' : List UInt8} (h : ArePending rs code)
    (h' : ArePending rs' code') :
    ArePending (rs ++ rs'.map (·.shift code.length)) (code ++ code') where
  inside := by
    intro r hr
    show r.offset + r.kind.size ≤ (code ++ code').length
    rw [List.length_append]
    rcases List.mem_append.mp hr with hr | hr
    · exact Nat.le_trans (h.inside r hr) (Nat.le_add_right ..)
    · obtain ⟨s, hs, rfl⟩ := List.mem_map.mp hr
      have hfits : s.offset + s.kind.size ≤ code'.length := h'.inside s hs
      show code.length + s.offset + s.kind.size ≤ _
      omega
  apart := by
    rw [List.pairwise_append]
    refine ⟨h.apart, ?_, ?_⟩
    · rw [List.pairwise_map]
      exact h'.apart.imp fun hapart => isApart_shift hapart code.length
    · intro r hr s hs
      obtain ⟨s, -, rfl⟩ := List.mem_map.mp hs
      exact isApart_shift_of_fitsIn (h.inside r hr) s
  filled := by
    intro r hr hkind
    rcases List.mem_append.mp hr with hr | hr
    · rw [field_append_left (h.inside r hr)]
      exact h.filled r hr hkind
    · obtain ⟨s, hs, rfl⟩ := List.mem_map.mp hr
      rw [field_append_right]
      exact h'.filled s hs hkind

/-- Some of the requests are pending, too. -/
theorem sublist {rs rs' : List Relocation} {code : List UInt8} (h : ArePending rs code)
    (hsub : rs'.Sublist rs) : ArePending rs' code :=
  ⟨fun r hr => h.inside r (hsub.subset hr), h.apart.sublist hsub,
    fun r hr => h.filled r (hsub.subset hr)⟩

end ArePending

end Relocation

end Stm8
