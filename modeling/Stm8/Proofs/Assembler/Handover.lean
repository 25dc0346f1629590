import Stm8.Proofs.Assembler.Linking
import Stm8.Proofs.Assembler.Pending
import Stm8.Proofs.Relocation.Rounds

/-!
# Handing requests over

A program may be finished before all its symbols have values. Then the image still holds
the requests for the others, and somebody else carries them out on its bytes later on
(`linkOutside`). This comes to the same as if the assembler had known the values:

> `finish_linkOutside`: whatever the order in which the requests that were handed over
> are carried out, they lead to the bytes and to the problems that the assembler finds
> when it knows the values itself.

All requests of a program are pending, so they can be put into the order in which those
that the assembler carries out come first.
-/

namespace Stm8

open Relocation (patch orLater ArePending)

/-! ## Outside of the assembler -/

/-- The values that symbols have outside of the program. -/
def outsideValue? (externals : List (String × UInt32)) (name : String) : Option Int :=
  (lastExternal? externals name).map fun v => (v.toNat : Int)

/-- Carries out the requests for symbols that have a value outside of the program, one
after another on code that starts at `base`. The other requests are left alone. The result
is the code, and the problems of the requests that could not be carried out. -/
def linkOutside (base : UInt32) (externals : List (String × UInt32)) :
    List Relocation → List UInt8 → List UInt8 × List Problem
  | [], code => (code, [])
  | r :: rs, code =>
    match outsideValue? externals r.symbol with
    | none => linkOutside base externals rs code
    | some target =>
      let (next, problem) := r.apply code base target
      let (last, problems) := linkOutside base externals rs next
      (last, problem.toList ++ problems)

/-- Requests for fields inside the code write their numbers, and report what is wrong. -/
theorem linkOutside_eq {base : UInt32} {externals : List (String × UInt32)}
    {rs : List Relocation} :
    ∀ {code : List UInt8}, (∀ r ∈ rs, r.FitsIn code.length) →
      linkOutside base externals rs code =
        (patch base (outsideValue? externals) 0 rs code,
          rs.filterMap (·.problem? base (outsideValue? externals))) := by
  induction rs with
  | nil => exact fun _ => rfl
  | cons r rs ih =>
    intro code hfits
    rw [List.forall_mem_cons] at hfits
    obtain ⟨hfits, hrest⟩ := hfits
    rw [linkOutside, Relocation.patch_cons, Relocation.shift_zero, List.filterMap_cons]
    cases htarget : outsideValue? externals r.symbol with
    | none =>
      have hnumber : r.number? base (outsideValue? externals) = none := by
        rw [Relocation.number?, htarget]
      have hproblem : r.problem? base (outsideValue? externals) = none := by
        rw [Relocation.problem?, htarget]
      rw [hnumber, hproblem]
      exact ih hrest
    | some target =>
      rcases Relocation.apply_cases hfits htarget with
        ⟨v, hnumber, hproblem, happly⟩ | ⟨problem, hnumber, hproblem, happly⟩
      · rw [hnumber, hproblem]
        dsimp only
        rw [happly]
        rw [← Relocation.length_write hfits v] at hrest
        exact ih hrest
      · rw [hnumber, hproblem]
        dsimp only
        rw [happly]
        dsimp only
        rw [ih hrest, Option.toList_some, List.singleton_append]

namespace Assembler

/-! ## Symbols from outside -/

section

variable {a : Assembler} {externals : List (String × UInt32)}

/-- Symbols that are defined outside have their values only if they had none before. -/
theorem symbolValue?_withExternals (hnew : ∀ x ∈ externals, a.symbolValue? x.1 = none) :
    (a.withExternals externals).symbolValue? =
      orLater a.symbolValue? (outsideValue? externals) := by
  obtain ⟨known, hknown, hget⟩ := withExternals_spec a externals
  funext name
  rw [hknown, orLater]
  cases hlabel : a.labelIndex[name]? with
  | some i =>
    rw [symbolValue?_of_label hlabel, Option.some_or]
    exact symbolValue?_of_label (a := { a with externals := known }) hlabel
  | none =>
    have hnow := symbolValue?_of_no_label hlabel
    rw [hnow, outsideValue?]
    refine (symbolValue?_of_no_label (a := { a with externals := known }) hlabel).trans ?_
    dsimp only
    rw [hget]
    cases hlast : lastExternal? externals name with
    | none =>
      rw [Option.none_or, Option.map_none, Option.or_none]
    | some v =>
      -- a name that is defined now was not known before
      obtain ⟨x, hx, -⟩ := Option.map_eq_some_iff.mp hlast
      have hmem : x ∈ externals := List.mem_reverse.mp (List.mem_of_find?_eq_some hx)
      have hname := List.find?_some hx
      have hnone := hnew x hmem
      rw [beq_iff_eq.mp hname, hnow] at hnone
      rw [hnone]
      rfl

/-- The same requests are carried out when some symbols have been defined outside, on the
same code. -/
theorem link_withExternals (h : ∀ r ∈ a.relocations, r.FitsIn a.code.length)
    (hnew : ∀ x ∈ externals, a.symbolValue? x.1 = none) :
    (a.withExternals externals).link = {
      code := patch a.base (orLater a.symbolValue? (outsideValue? externals)) 0
        a.relocations a.code
      diagnostics := a.diagnostics ++ a.relocations.filterMap
        (·.problem? a.base (orLater a.symbolValue? (outsideValue? externals)))
      leftover := a.relocations.filter fun r =>
        (orLater a.symbolValue? (outsideValue? externals) r.symbol).isNone } := by
  have hvalue := symbolValue?_withExternals hnew
  obtain ⟨known, hknown, -⟩ := withExternals_spec a externals
  rw [hknown] at hvalue ⊢
  have hlink := link_eq (a := { a with externals := known }) h
  rw [hvalue] at hlink
  exact hlink

theorem rejections_withExternals (a : Assembler) (externals : List (String × UInt32)) :
    (a.withExternals externals).rejections = a.rejections := by
  obtain ⟨known, hknown, -⟩ := withExternals_spec a externals
  rw [hknown]

end

/-! ## Finishing early -/

/-- **Handing requests over is the same as carrying them out.** The requests of a program
are pending. If no statement was rejected, the program is finished without those whose
symbols have no values, and these are still pending on its bytes. If they are carried out
there in any order, once some of the symbols have values, the bytes and the problems are
those of the program that is finished when these symbols have been defined. -/
theorem finish_linkOutside {a : Assembler} (ha : a.Reachable) :
    ArePending a.relocations a.code ∧
      (a.rejections = [] → ∃ image, a.finish = .ok image ∧
        image.relocations = (a.relocations.filter fun r => (a.symbolValue? r.symbol).isNone) ∧
        ArePending image.relocations image.bytes ∧
        ∀ externals : List (String × UInt32), (∀ x ∈ externals, a.symbolValue? x.1 = none) →
          ∃ image', (a.withExternals externals).finish = .ok image' ∧
            ∀ order : List Relocation, order.Perm image.relocations →
              (linkOutside image.base externals order image.bytes).1 = image'.bytes ∧
              (image.diagnostics ++
                (linkOutside image.base externals order image.bytes).2).Perm
                  image'.diagnostics) := by
  have hpending : ArePending a.relocations a.code := isPending_of_reachable ha
  have hleft := hpending.leftover a.base a.symbolValue?
  refine ⟨hpending, fun hrejections => ?_⟩
  have hlink := link_eq hpending.inside
  have hbytes : a.image.bytes = patch a.base a.symbolValue? 0 a.relocations a.code :=
    congrArg Linking.code hlink
  have hrelocations : a.image.relocations =
      a.relocations.filter fun r => (a.symbolValue? r.symbol).isNone :=
    congrArg Linking.leftover hlink
  have hdiagnostics : a.image.diagnostics =
      a.diagnostics ++ a.relocations.filterMap (·.problem? a.base a.symbolValue?) :=
    congrArg Linking.diagnostics hlink
  refine ⟨a.image, finish_eq_image hrejections, hrelocations, ?_, fun externals hnew => ?_⟩
  · rw [hrelocations, hbytes]
    exact hleft
  · -- the same program, only that it knows more symbols
    have hlater := link_withExternals hpending.inside hnew
    have hnone := (rejections_withExternals a externals).trans hrejections
    refine ⟨(a.withExternals externals).image, finish_eq_image hnone, fun order horder => ?_⟩
    rw [hrelocations] at horder
    have hinside : ∀ r ∈ order, r.FitsIn a.image.bytes.length := by
      intro r hr
      rw [hbytes]
      exact hleft.inside r (horder.mem_iff.mp hr)
    rw [linkOutside_eq hinside]
    constructor
    · rw [hbytes]
      exact (Relocation.patch_later hpending horder).trans (congrArg Linking.code hlater).symm
    · have hall : (a.withExternals externals).image.diagnostics = _ :=
        congrArg Linking.diagnostics hlater
      rw [hall, hdiagnostics, List.append_assoc]
      exact (Relocation.problems_later horder).append_left a.diagnostics

/-- A bit test that is finished without the address and the bit, which are put into it in
the wrong order. -/
theorem finish_linkOutside_btjt :
    let steps := [Step.base 0x8000, .emit "loop: btjt port, #bit, loop"]
    let externals : List (String × UInt32) := [("bit", 3), ("port", 0x5000)]
    ∃ image image', (run {} steps).finish = .ok image ∧
      image.bytes = [0x72, 0x00, 0xAA, 0xAA, 0xFB] ∧
      image.relocations.map (·.symbol) = ["port", "bit"] ∧
      ((run {} steps).withExternals externals).finish = .ok image' ∧
      (linkOutside image.base externals image.relocations.reverse image.bytes).1 =
        image'.bytes := by
  intro steps externals
  have hfacts : (run {} steps).rejections = [] ∧
      (run {} steps).image.bytes = [0x72, 0x00, 0xAA, 0xAA, 0xFB] ∧
      (run {} steps).image.relocations.map (·.symbol) = ["port", "bit"] ∧
      ∀ x ∈ externals, (run {} steps).symbolValue? x.1 = none := by
    decide +kernel
  obtain ⟨hrejections, hbytes, hsymbols, hnew⟩ := hfacts
  obtain ⟨-, hfinished⟩ := finish_linkOutside ⟨steps, rfl⟩
  obtain ⟨image, hfinish, -, -, hlinked⟩ := hfinished hrejections
  obtain ⟨image', hfinish', horders⟩ := hlinked externals hnew
  obtain ⟨hsame, -⟩ := horders image.relocations.reverse (List.reverse_perm _)
  -- the image is the one whose bytes and requests are known
  obtain rfl : (run {} steps).image = image :=
    Except.ok.inj ((finish_eq_image hrejections).symm.trans hfinish)
  exact ⟨_, image', hfinish, hbytes, hsymbols, hfinish', hsame⟩

end Assembler

end Stm8
