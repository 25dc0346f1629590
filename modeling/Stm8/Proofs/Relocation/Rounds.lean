import Stm8.Proofs.Relocation.Pending

/-!
# Carrying out requests in two rounds

Requests whose symbols have no values yet are left over. They can be carried out in a
second round, when the symbols have got their values (`orLater`):

> `ArePending.leftover`: what is left over is still pending.
> `patch_later`, `problems_later`: both rounds together lead to the code and to the
> problems of a single one, in whatever order the second one is.
-/

namespace Stm8

namespace Relocation

/-- The values of symbols, some of which get theirs later. -/
def orLater (value? later? : String → Option Int) (name : String) : Option Int :=
  (value? name).or (later? name)

section

variable {base : UInt32} {value? later? : String → Option Int} {rs : List Relocation}

/-! ## Which requests count -/

/-- The requests whose symbols have values and those whose symbols have none are all. -/
theorem perm_of_values (value? : String → Option Int) (rs : List Relocation) :
    ((rs.filter fun r => (value? r.symbol).isSome) ++
      rs.filter fun r => (value? r.symbol).isNone).Perm rs := by
  have hperm := List.filter_append_perm (fun r : Relocation => (value? r.symbol).isSome) rs
  simp only [Option.not_isSome] at hperm
  exact hperm

/-- Requests whose symbols have no values are not carried out. -/
theorem patch_resolved (base : UInt32) (value? : String → Option Int) (rs : List Relocation)
    (code : List UInt8) :
    patch base value? 0 (rs.filter fun r => (value? r.symbol).isSome) code =
      patch base value? 0 rs code := by
  induction rs generalizing code with
  | nil => rfl
  | cons r rs ih =>
    rw [List.filter_cons, patch_cons, shift_zero, number?]
    cases hvalue : value? r.symbol with
    | none => exact ih code
    | some target =>
      rw [Option.isSome_some, if_pos rfl, patch_cons, shift_zero, number?, hvalue]
      exact ih _

/-- Nor do they have problems. -/
theorem problems_resolved (base : UInt32) (value? : String → Option Int)
    (rs : List Relocation) :
    (rs.filter fun r => (value? r.symbol).isSome).filterMap (·.problem? base value?) =
      rs.filterMap (·.problem? base value?) := by
  rw [List.filterMap_filter]
  refine congrArg (List.filterMap · rs) (funext fun r => ?_)
  unfold problem?
  cases value? r.symbol <;> rfl

/-- Only the values of their own symbols count for requests. -/
theorem patch_congr (h : ∀ r ∈ rs, value? r.symbol = later? r.symbol) (code : List UInt8) :
    patch base value? 0 rs code = patch base later? 0 rs code := by
  induction rs generalizing code with
  | nil => rfl
  | cons r rs ih =>
    rw [List.forall_mem_cons] at h
    rw [patch_cons, patch_cons, shift_zero, number?, number?, h.1]
    exact ih h.2 _

/-- So it is with problems. -/
theorem problems_congr (h : ∀ r ∈ rs, value? r.symbol = later? r.symbol) :
    rs.filterMap (·.problem? base value?) = rs.filterMap (·.problem? base later?) := by
  induction rs with
  | nil => rfl
  | cons r rs ih =>
    rw [List.forall_mem_cons] at h
    rw [List.filterMap_cons, List.filterMap_cons, ih h.2, problem?, problem?, h.1]

/-- Values that come later do not count where there are some. -/
theorem eq_orLater_of_known : ∀ r ∈ rs.filter fun r => (value? r.symbol).isSome,
    value? r.symbol = orLater value? later? r.symbol := by
  intro r hr
  rw [orLater, Option.or_of_isSome (List.mem_filter.mp hr).2]

/-- Where there are none, they are all that counts. -/
theorem eq_orLater_of_unknown : ∀ r ∈ rs.filter fun r => (value? r.symbol).isNone,
    later? r.symbol = orLater value? later? r.symbol := by
  intro r hr
  rw [orLater, Option.isNone_iff_eq_none.mp (List.mem_filter.mp hr).2, Option.none_or]

/-! ## The second round -/

section

variable {code : List UInt8}

/-- Requests whose symbols have no values stay pending when the others are carried out. -/
theorem ArePending.leftover (h : ArePending rs code) (base : UInt32)
    (value? : String → Option Int) :
    ArePending (rs.filter fun r => (value? r.symbol).isNone) (patch base value? 0 rs code) := by
  have hleft := h.sublist (List.filter_sublist (p := fun r => (value? r.symbol).isNone))
  have hapart := (perm_of_values value? rs).symm.pairwise h.apart IsApart.symm
  rw [List.pairwise_append] at hapart
  constructor
  · intro r hr
    rw [length_patch h.inside]
    exact hleft.inside r hr
  · exact hleft.apart
  · intro r hr hkind
    rw [← patch_resolved, field_patch (fun s hs => hapart.2.2 s hs r hr)
      (fun s hs => h.inside s (List.mem_filter.mp hs).1) (hleft.inside r hr)]
    exact hleft.filled r hr hkind

/-- **Requests whose symbols get their values later can be carried out later, in any
order.** -/
theorem patch_later (h : ArePending rs code) {order : List Relocation}
    (horder : order.Perm (rs.filter fun r => (value? r.symbol).isNone)) :
    patch base later? 0 order (patch base value? 0 rs code) =
      patch base (orLater value? later?) 0 rs code := by
  have hleft := h.leftover base value?
  have hperm := perm_of_values value? rs
  have hinside : ∀ r ∈ order, r.FitsIn (patch base value? 0 rs code).length := fun r hr =>
    hleft.inside r (horder.mem_iff.mp hr)
  calc patch base later? 0 order (patch base value? 0 rs code)
      = patch base later? 0 (rs.filter fun r => (value? r.symbol).isNone)
          (patch base value? 0 (rs.filter fun r => (value? r.symbol).isSome) code) := by
        rw [patch_resolved]
        exact patch_perm horder hinside (horder.symm.pairwise hleft.apart IsApart.symm)
    _ = patch base (orLater value? later?) 0
          ((rs.filter fun r => (value? r.symbol).isSome) ++
            rs.filter fun r => (value? r.symbol).isNone) code := by
        rw [patch_append, patch_congr eq_orLater_of_known, patch_congr eq_orLater_of_unknown]
    _ = patch base (orLater value? later?) 0 rs code :=
        patch_perm hperm (fun r hr => h.inside r (hperm.mem_iff.mp hr))
          (hperm.symm.pairwise h.apart IsApart.symm)

/-- The problems of both rounds are those of a single one. -/
theorem problems_later {order : List Relocation}
    (horder : order.Perm (rs.filter fun r => (value? r.symbol).isNone)) :
    (rs.filterMap (·.problem? base value?) ++ order.filterMap (·.problem? base later?)).Perm
      (rs.filterMap (·.problem? base (orLater value? later?))) := by
  have hround : (order.filterMap (·.problem? base later?)).Perm
      ((rs.filter fun r => (value? r.symbol).isNone).filterMap
        (·.problem? base (orLater value? later?))) := by
    rw [← problems_congr eq_orLater_of_unknown]
    exact horder.filterMap _
  rw [← problems_resolved, problems_congr eq_orLater_of_known]
  refine (hround.append_left _).trans ?_
  rw [← List.filterMap_append]
  exact (perm_of_values value? rs).filterMap _

end

end

end Relocation

end Stm8
