import Stm8.Proofs.Assembler.Order
import Stm8.Proofs.Assembler.Pending
import Stm8.Proofs.Relocation.Exactness

/-!
# The same program at another address

Finishing puts addresses and distances into the code. The distance from a branch to a
label is the same wherever the program stands, and so is the value of a symbol from
outside; only the address of a label and the distance to a symbol from outside change
with the base address (`MovesWithBase`). Addresses of labels are not reduced to 32 bits
before distances are taken, so nothing changes when a program runs over the end of the
address space.

> `finish_rebase`: sessions that differ in their base address only are finished to the
> same bytes outside of the fields of such requests, and a branch to a label gets its
> distance in the program or is reported with it, if its sum does not overflow.
> `exists_branch_misreported`: what is reported if it does.
-/

namespace Stm8

namespace Relocation

/-! ## Single bytes -/

section

variable {r : Relocation} {code code' : List UInt8}

/-- What is written depends on the byte itself only. -/
theorem getElem?_write_congr (h : r.FitsIn code.length) (hlength : code.length = code'.length)
    {n : Nat} (hn : code[n]? = code'[n]?) (v : Int) :
    (r.write code v)[n]? = (r.write code' v)[n]? := by
  by_cases hcovers : r.Covers n
  · unfold Covers at hcovers
    unfold FitsIn at h
    by_cases hkind : r.kind = .bitNumber
    · rw [write_of_bitNumber hkind, write_of_bitNumber hkind, List.getElem?_modify,
        List.getElem?_modify, hn]
    · have htake : (code.take r.offset).length = r.offset := List.length_take_of_le (by omega)
      have htake' : (code'.take r.offset).length = r.offset := List.length_take_of_le (by omega)
      have hfield : ∀ w : List UInt8, w.length = r.offset →
          ∀ behind, (w ++ bigEndian r.kind.size v ++ behind)[n]? =
            (bigEndian r.kind.size v)[n - r.offset]? := by
        intro w hw behind
        rw [List.append_assoc, List.getElem?_append_right (by omega), hw,
          List.getElem?_append_left (by rw [length_bigEndian]; omega)]
      rw [write_of_ne_bitNumber hkind, write_of_ne_bitNumber hkind, hfield _ htake,
        hfield _ htake']
  · rw [getElem?_write_of_not_covers h hcovers,
      getElem?_write_of_not_covers (by rw [← hlength]; exact h) hcovers, hn]

end

/-! ## All requests -/

section

variable {base base' : UInt32} {value? value'? : String → Option Int} {rs : List Relocation}

/-- The code after the request, if it has a number to write. -/
def carryOut (r : Relocation) (base : UInt32) (value? : String → Option Int)
    (code : List UInt8) : List UInt8 :=
  match r.number? base value? with
  | some v => r.write code v
  | none => code

theorem patch_cons_carryOut (r : Relocation) (rs : List Relocation) (code : List UInt8) :
    patch base value? 0 (r :: rs) code =
      patch base value? 0 rs (r.carryOut base value? code) := by
  rw [patch_cons, shift_zero]
  rfl

theorem length_carryOut {r : Relocation} {code : List UInt8} (h : r.FitsIn code.length) :
    (r.carryOut base value? code).length = code.length := by
  unfold carryOut
  cases r.number? base value? with
  | none => rfl
  | some v => exact length_write h v

theorem getElem?_carryOut_of_not_covers {r : Relocation} {code : List UInt8}
    (h : r.FitsIn code.length) {n : Nat} (hn : ¬r.Covers n) :
    (r.carryOut base value? code)[n]? = code[n]? := by
  unfold carryOut
  cases r.number? base value? with
  | none => rfl
  | some v => exact getElem?_write_of_not_covers h hn v

/-- At a byte that only requests with the same numbers cover, the code becomes the same. -/
theorem getElem?_patch_congr {n : Nat}
    (hsame : ∀ r ∈ rs, r.Covers n → r.number? base value? = r.number? base' value'?) :
    ∀ {code code' : List UInt8}, (∀ r ∈ rs, r.FitsIn code.length) →
      code.length = code'.length → code[n]? = code'[n]? →
      (patch base value? 0 rs code)[n]? = (patch base' value'? 0 rs code')[n]? := by
  induction rs with
  | nil => exact fun _ _ hn => hn
  | cons r rs ih =>
    intro code code' hfits hlength hn
    rw [List.forall_mem_cons] at hfits hsame
    have hfits' : r.FitsIn code'.length := hlength ▸ hfits.1
    rw [patch_cons_carryOut, patch_cons_carryOut]
    refine ih hsame.2 ?_ ?_ ?_
    · rw [length_carryOut hfits.1]
      exact hfits.2
    · rw [length_carryOut hfits.1, length_carryOut hfits', hlength]
    · by_cases hcovers : r.Covers n
      · unfold carryOut
        rw [hsame.1 hcovers]
        cases r.number? base' value'? with
        | none => exact hn
        | some v => exact getElem?_write_congr hfits.1 hlength hn v
      · rw [getElem?_carryOut_of_not_covers hfits.1 hcovers,
          getElem?_carryOut_of_not_covers hfits' hcovers, hn]

/-- In the field of a number stands what its request had to write, or filler. -/
theorem ArePending.field_patch_mem {code : List UInt8} (h : ArePending rs code)
    {r : Relocation} (hr : r ∈ rs) (hkind : r.kind ≠ .bitNumber) :
    r.field (patch base value? 0 rs code) =
      match r.number? base value? with
      | some v => bigEndian r.kind.size v
      | none => List.replicate r.kind.size filler := by
  have hperm : rs.Perm (r :: rs.erase r) := List.perm_cons_erase hr
  have hapart := hperm.pairwise h.apart IsApart.symm
  rw [List.pairwise_cons] at hapart
  have hothers : ∀ s ∈ rs.erase r, s.FitsIn code.length :=
    fun s hs => h.inside s (List.mem_of_mem_erase hs)
  rw [patch_perm hperm h.inside h.apart, patch_cons, shift_zero]
  cases r.number? base value? with
  | none =>
    rw [field_patch (fun s hs => (hapart.1 s hs).symm) hothers (h.inside r hr)]
    exact h.filled r hr hkind
  | some v =>
    have hlength := length_write (h.inside r hr) v
    rw [field_patch (fun s hs => (hapart.1 s hs).symm) (by rw [hlength]; exact hothers)
      (by rw [hlength]; exact h.inside r hr)]
    exact field_write_self (h.inside r hr) hkind v

end

end Relocation

/-! ## Numbers and the base address -/

namespace Assembler

/-- Whether the number of the request changes with the base address: the address of a
label, or the distance to a symbol from outside. -/
def MovesWithBase (a : Assembler) (r : Relocation) : Prop :=
  if r.kind = .relative8 then
    a.labelOffset? r.symbol = none ∧ a.externals[r.symbol]?.isSome = true
  else (a.labelOffset? r.symbol).isSome = true

/-- Whether the programs are the same, but for the address of the first byte and the way
in which the symbols from outside are kept. -/
structure IsRebasedTo (a b : Assembler) : Prop where
  code : b.code = a.code
  relocations : b.relocations = a.relocations
  diagnostics : b.diagnostics = a.diagnostics
  rejections : b.rejections = a.rejections
  labels : b.labels = a.labels
  labelIndex : b.labelIndex = a.labelIndex
  externals : ∀ name : String, b.externals[name]? = a.externals[name]?

/-- The value of a label is its offset behind the base address. -/
theorem symbolValue?_eq (a : Assembler) (name : String) :
    a.symbolValue? name =
      match a.labelOffset? name with
      | some offset => some (a.base.toNat + offset : Int)
      | none => a.externals[name]?.map fun v => (v.toNat : Int) := by
  unfold symbolValue? labelOffset?
  cases a.labelIndex[name]? <;> rfl

/-- The distance to a label does not depend on the base address. -/
theorem sum_of_label {r : Relocation} (hkind : r.kind = .relative8) (base : UInt32)
    (offset : Nat) :
    r.sum base (base.toNat + offset) = offset + r.addend - (r.offset + 1) := by
  rw [Relocation.sum, hkind, Relocation.Kind.isRelative, if_pos rfl]
  omega

/-- Requests that do not move with the base address have the same numbers. -/
theorem number?_of_isRebasedTo {a b : Assembler} (h : a.IsRebasedTo b) {r : Relocation}
    (hr : ¬a.MovesWithBase r) :
    r.number? a.base a.symbolValue? = r.number? b.base b.symbolValue? := by
  have hlabels : b.labelOffset? r.symbol = a.labelOffset? r.symbol := by
    unfold labelOffset?
    rw [h.labelIndex, h.labels]
  unfold MovesWithBase at hr
  unfold Relocation.number?
  by_cases hkind : r.kind = .relative8
  · rw [if_pos hkind] at hr
    cases hlabel : a.labelOffset? r.symbol with
    | some offset =>
      rw [symbolValue?_eq, symbolValue?_eq, hlabels, hlabel]
      dsimp only
      simp only [Relocation.value_eq_wrap, sum_of_label hkind]
    | none =>
      have hnone : a.externals[r.symbol]? = none := by
        rw [← Option.not_isSome_iff_eq_none]
        exact fun hsome => hr ⟨hlabel, hsome⟩
      rw [symbolValue?_eq, symbolValue?_eq, hlabels, hlabel]
      dsimp only
      rw [h.externals, hnone]
      rfl
  · rw [if_neg hkind, Option.not_isSome_iff_eq_none] at hr
    have hplain : ∀ (base : UInt32) (target : Int),
        r.value base target = Quantity.wrap (target + r.addend) := by
      intro base target
      unfold Relocation.value
      cases hrelative : r.kind with
      | relative8 => exact absurd hrelative hkind
      | _ => rfl
    rw [symbolValue?_eq, symbolValue?_eq, hlabels, hr]
    dsimp only
    rw [h.externals]
    simp only [hplain]

/-! ## Sessions at two addresses -/

/-- Calls that set the base address define no symbols, and are not among those that
configure nothing. -/
theorem filter_unbased (steps : List Step) :
    (steps.filter (·.base?.isNone)).filter (!·.isConfiguration) =
        steps.filter (!·.isConfiguration) ∧
      bindings (steps.filter (·.base?.isNone)) = bindings steps := by
  constructor
  · rw [List.filter_filter]
    refine congrArg (List.filter · steps) (funext fun step => ?_)
    cases step <;> rfl
  · unfold bindings
    rw [List.filterMap_filter]
    refine congrArg (List.filterMap · steps) (funext fun step => ?_)
    cases step <;> rfl

/-- Sessions that differ in the base address only lead to the same program. -/
theorem isRebasedTo_run {steps steps' : List Step}
    (h : steps.filter (·.base?.isNone) = steps'.filter (·.base?.isNone)) :
    (run {} steps).IsRebasedTo (run {} steps') := by
  have hothers : steps.filter (!·.isConfiguration) = steps'.filter (!·.isConfiguration) := by
    rw [← (filter_unbased steps).1, h, (filter_unbased steps').1]
  have hbindings : bindings steps = bindings steps' := by
    rw [← (filter_unbased steps).2, h, (filter_unbased steps').2]
  obtain ⟨⟨known, hrun, hknown⟩, -⟩ := exists_configured {} steps
  obtain ⟨⟨known', hrun', hknown'⟩, -⟩ := exists_configured {} steps'
  rw [hrun, hrun', hothers]
  refine ⟨rfl, rfl, rfl, rfl, rfl, rfl, fun name => ?_⟩
  show known'[name]? = known[name]?
  rw [hknown, hknown', hbindings]

/-- A branch to a label of a finished program has its distance in its field, or is
reported with it, unless adding up overflows. -/
theorem branch_of_pending {a : Assembler} (ha : a.IsPending) {r : Relocation}
    (hr : r ∈ a.relocations) (hkind : r.kind = .relative8) {offset : Nat}
    (hlabel : a.labelOffset? r.symbol = some offset) {d : Int}
    (hd : d = offset + r.addend - (r.offset + 1))
    (hsum : r.overflows a.base (a.base.toNat + offset) = false) :
    (-128 ≤ d ∧ d ≤ 127 ∧ r.field a.image.bytes = bigEndian 1 d) ∨
      ((d < -128 ∨ 127 < d) ∧ r.field a.image.bytes = [filler] ∧
        .branchOutOfRange r.symbol d 127 r.span ∈ a.image.diagnostics) := by
  have htarget : a.symbolValue? r.symbol = some (a.base.toNat + offset : Int) := by
    rw [symbolValue?_eq, hlabel]
  have hvalue : r.value a.base (a.base.toNat + offset) = d := by
    rw [Relocation.value_of_not_overflows hsum, sum_of_label hkind, hd]
  have hfield : r.field (Relocation.patch a.base a.symbolValue? 0 a.relocations a.code) = _ :=
    ha.field_patch_mem hr (by rw [hkind]; decide)
  have hrange : r.kind.range = (-128, 127) := by rw [hkind]; rfl
  have hsize : r.kind.size = 1 := by rw [hkind]; rfl
  have hrelative : r.kind.isRelative = true := by rw [hkind]; rfl
  unfold image
  rw [link_eq ha.inside]
  dsimp only
  rw [hfield]
  by_cases hout : d < -128 ∨ 127 < d
  · have hout' : (d < -128 || 127 < d) = true := by simpa using hout
    have hnumber : r.number? a.base a.symbolValue? = none := by
      rw [Relocation.number?, htarget]
      dsimp only
      rw [hvalue, hrange, if_pos hout']
    have hproblem : r.problem? a.base a.symbolValue? =
        some (.branchOutOfRange r.symbol d 127 r.span) := by
      rw [Relocation.problem?, htarget]
      dsimp only
      rw [hvalue, hrange, if_pos hout', Relocation.rangeProblem, hrelative, if_pos rfl, hrange]
    rw [hnumber, hsize]
    refine Or.inr ⟨hout, rfl, List.mem_append_right _ ?_⟩
    exact List.mem_filterMap.mpr ⟨r, hr, hproblem⟩
  · have hin : ¬(d < -128 || 127 < d) = true := by simpa using hout
    have hnumber : r.number? a.base a.symbolValue? = some d := by
      rw [Relocation.number?, htarget]
      dsimp only
      rw [hvalue, hrange, if_neg hin]
    rw [hnumber, hsize]
    refine Or.inl ⟨by omega, by omega, rfl⟩

/-- **A program does not depend on its address except where it says so.** Two sessions
without rejected statements that differ in the base address only are finished to as many
bytes, which are the same outside of the fields of requests that move with the base
address. A branch to a label is not one of them: at either address its field holds the
distance from its own end to the label, or the branch is reported with that distance,
unless adding it up overflows there. -/
theorem finish_rebase {steps steps' : List Step}
    (hsteps : steps.filter (·.base?.isNone) = steps'.filter (·.base?.isNone))
    (haccepted : (run {} steps).rejections = []) :
    ∃ image image', (run {} steps).finish = .ok image ∧ (run {} steps').finish = .ok image' ∧
      image'.bytes.length = image.bytes.length ∧
      (∀ n : Nat, (∀ r ∈ (run {} steps).relocations, (run {} steps).MovesWithBase r →
          ¬r.Covers n) → image'.bytes[n]? = image.bytes[n]?) ∧
      ∀ r ∈ (run {} steps).relocations, r.kind = .relative8 →
        ∀ offset, (run {} steps).labelOffset? r.symbol = some offset →
          ∀ d : Int, d = offset + r.addend - (r.offset + 1) → ∀ i ∈ [image, image'],
            r.overflows i.base (i.base.toNat + offset) = false →
            (-128 ≤ d ∧ d ≤ 127 ∧ r.field i.bytes = bigEndian 1 d) ∨
              ((d < -128 ∨ 127 < d) ∧ r.field i.bytes = [filler] ∧
                .branchOutOfRange r.symbol d 127 r.span ∈ i.diagnostics) := by
  have hsame := isRebasedTo_run hsteps
  have hpending : (run {} steps).IsPending := isPending_of_reachable ⟨steps, rfl⟩
  have hpending' : (run {} steps').IsPending := isPending_of_reachable ⟨steps', rfl⟩
  -- only the two programs count from here on
  generalize run {} steps = a at *
  generalize run {} steps' = b at *
  have hbytes : a.image.bytes = Relocation.patch a.base a.symbolValue? 0 a.relocations a.code := by
    unfold image
    rw [link_eq hpending.inside]
  have hbytes' : b.image.bytes = Relocation.patch b.base b.symbolValue? 0 a.relocations a.code := by
    unfold image
    rw [link_eq hpending'.inside, hsame.relocations, hsame.code]
  refine ⟨a.image, b.image, finish_eq_image haccepted,
    finish_eq_image (hsame.rejections.trans haccepted), ?_, ?_, ?_⟩
  · rw [hbytes, hbytes', Relocation.length_patch hpending.inside,
      Relocation.length_patch hpending.inside]
  · intro n hn
    rw [hbytes, hbytes']
    refine (Relocation.getElem?_patch_congr ?_ hpending.inside rfl rfl).symm
    intro r hr hcovers
    exact number?_of_isRebasedTo hsame fun hmoves => hn r hr hmoves hcovers
  · intro r hr hkind offset hlabel d hd i hi hsum
    rcases List.mem_cons.mp hi with rfl | hi
    · exact branch_of_pending hpending hr hkind hlabel hd hsum
    · obtain rfl := List.mem_singleton.mp hi
      have hlabel' : b.labelOffset? r.symbol = some offset := by
        rw [← hlabel]
        unfold labelOffset?
        rw [hsame.labelIndex, hsame.labels]
      rw [← hsame.relocations] at hr
      exact branch_of_pending hpending' hr hkind hlabel' hd hsum

theorem run_cons (a : Assembler) (step : Step) (steps : List Step) :
    a.run (step :: steps) = (a.perform step).1.run steps := rfl

/-- A branch to itself at the end of the address space: its label would stand at 2^32,
which no word holds, and its distance is the same as anywhere. -/
theorem finish_rebase_around :
    let target : Operand := ⟨.directMemory, some (.symbol ⟨"here", 0, false⟩), .nowhere⟩
    let calls := [Step.data [0x9D, 0x9D], .label "here", .instruction "jra" [target],
      .emit ".dw here"]
    ∃ image image', (run {} (.base 0xFFFFFFFE :: calls)).finish = .ok image ∧
      (run {} (calls ++ [.base 0x8000])).finish = .ok image' ∧
      (∀ n < 4, image'.bytes[n]? = image.bytes[n]?) ∧
      (image.bytes.drop 3).take 1 = [0xFE] ∧ (image'.bytes.drop 3).take 1 = [0xFE] := by
  intro target calls
  let branch : Relocation := ⟨3, .relative8, "here", 0, .nowhere⟩
  let word : Relocation := ⟨4, .abs16, "here", 0, ⟨1, 5, 4, 4⟩⟩
  have hform : selectForm "jra" [target] .nowhere = .ok ⟨"jra", [.relative], 0x20⟩ :=
    selectForm_eq_ok_iff.mpr rfl
  have hjump : ∀ a : Assembler, (a.perform (.instruction "jra" [target])).1 =
      (a.extend ⟨[0x20, filler], [⟨1, .relative8, "here", 0, .nowhere⟩], []⟩).note
        a.code.length "jra here" := by
    intro a
    rw [perform_instruction, outcome_fst, instruction, hform]
    rfl
  have hstate : (run {} (.base 0xFFFFFFFE :: calls)).rejections = [] ∧
      (run {} (.base 0xFFFFFFFE :: calls)).relocations = [branch, word] ∧
      (run {} (.base 0xFFFFFFFE :: calls)).labelOffset? "here" = some 2 := by
    rw [run_cons, run_cons, run_cons, run_cons, hjump]
    decide +kernel
  obtain ⟨haccepted, hrelocations, hlabel⟩ := hstate
  obtain ⟨image, image', hfinish, hfinish', -, hbytes, hbranch⟩ :=
    @finish_rebase (.base 0xFFFFFFFE :: calls) (calls ++ [.base 0x8000]) rfl haccepted
  refine ⟨image, image', hfinish, hfinish', fun n hn => ?_, ?_⟩
  · refine hbytes n fun r hr hmoves hcovers => ?_
    rw [hrelocations] at hr
    rcases List.mem_cons.mp hr with rfl | hr
    · -- the branch does not move
      have hnone := hmoves.1
      rw [show (run {} _).labelOffset? branch.symbol = _ from hlabel] at hnone
      cases hnone
    · obtain rfl := List.mem_singleton.mp hr
      exact absurd hcovers.1 (Nat.not_le.mpr hn)
  · have hmem : branch ∈ (run {} (.base 0xFFFFFFFE :: calls)).relocations := by
      rw [hrelocations]
      exact List.mem_cons_self
    have hsum : ∀ base : UInt32, branch.overflows base (base.toNat + (2 : Nat)) = false := by
      intro base
      have hbase := base.toNat_lt
      have haddend : branch.addend = 0 := rfl
      have hoffset : branch.offset = 3 := rfl
      rw [Relocation.overflows_eq_false_iff, sum_of_label rfl, Quantity.fits_iff,
        Quantity.fits_iff]
      omega
    have hfield : ∀ i ∈ [image, image'], branch.field i.bytes = [0xFE] := by
      intro i hi
      rcases hbranch branch hmem rfl 2 hlabel (-2) rfl i hi (hsum i.base) with
        ⟨-, -, hfield⟩ | ⟨hout, -, -⟩
      · exact hfield
      · omega
    exact ⟨hfield image List.mem_cons_self,
      hfield image' (List.mem_cons_of_mem _ List.mem_cons_self)⟩

/-- A branch whose distance is no quantity is accepted. The sum overflows, and if it wraps
around, the branch is reported with another distance and with the wrong sign. -/
theorem exists_branch_misreported :
    let a := run {} [.emit "x: jra x-9223372036854775807-1"]
    a.rejections = [] ∧ a.overflows = true ∧
      ∃ r ∈ a.relocations, r.kind = .relative8 ∧ a.labelOffset? r.symbol = some 0 ∧
        (0 : Nat) + r.addend - (r.offset + 1) = -9223372036854775810 ∧
        r.field a.image.bytes = [filler] ∧
        a.image.diagnostics = [.branchOutOfRange "x" 9223372036854775806 127 r.span] := by
  decide +kernel

end Assembler

end Stm8
