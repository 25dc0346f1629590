import Stm8.Proofs.Assembler.Linking
import Stm8.Proofs.Assembler.Unseen
import Stm8.Proofs.Line.Source

/-!
# The order of calls

Source text can be assembled in chunks, as long as these end where lines end. The calls
that configure an assembler can stand anywhere in a session: a symbol gets its value from
the last of them when the program is finished. And keeping source text for a listing has no
effect on anything else.

> `order_of_calls`: all of these.
> `exists_configured`: what a session does is what its calls do that configure nothing,
> with the last configuration put in.
-/

namespace Stm8

/-! ## Calls of a session -/

namespace Step

/-- Whether the call configures the assembler. -/
def isConfiguration : Step → Bool
  | base _ | external _ _ => true
  | _ => false

/-- Whether the call turns on the listing. -/
def isListing : Step → Bool
  | listing => true
  | _ => false

/-- The address that the call sets. -/
def base? : Step → Option UInt32
  | base address => some address
  | _ => none

/-- The symbol that the call defines outside the program. -/
def binding? : Step → Option (String × UInt32)
  | external name value => some (name, value)
  | _ => none

end Step

/-- The address that a session sets last. -/
def lastBase? (steps : List Step) : Option UInt32 :=
  (steps.filterMap Step.base?).getLast?

/-- The symbols that a session defines outside the program, in order. -/
def bindings (steps : List Step) : List (String × UInt32) :=
  steps.filterMap Step.binding?

theorem lastBase?_cons (step : Step) (steps : List Step) :
    lastBase? (step :: steps) = (lastBase? steps).or step.base? := by
  unfold lastBase?
  rw [List.filterMap_cons]
  cases step.base? with
  | none => exact (Option.or_none).symm
  | some address =>
    rw [List.getLast?_cons]
    cases (steps.filterMap Step.base?).getLast? <;> rfl

theorem bindings_cons (step : Step) (steps : List Step) :
    bindings (step :: steps) = step.binding?.toList ++ bindings steps := by
  unfold bindings
  rw [List.filterMap_cons]
  cases step.binding? <;> rfl

/-- Only calls that configure something set an address. -/
theorem lastBase?_filter (steps : List Step) :
    lastBase? (steps.filter Step.isConfiguration) = lastBase? steps := by
  unfold lastBase?
  rw [List.filterMap_filter]
  refine congrArg (fun f => (List.filterMap f steps).getLast?) (funext fun step => ?_)
  cases step <;> rfl

/-- Only they define symbols outside the program. -/
theorem bindings_filter (steps : List Step) :
    bindings (steps.filter Step.isConfiguration) = bindings steps := by
  unfold bindings
  rw [List.filterMap_filter]
  refine congrArg (List.filterMap · steps) (funext fun step => ?_)
  cases step <;> rfl

/-- The image without the source text that was kept for its listing. -/
def Image.withoutNotes (i : Image) : Image :=
  { i with notes := [] }

namespace Assembler

/-! ## Chunks -/

theorem emitLines_append (a : Assembler) (lines lines' : List (List Char)) :
    a.emitLines (lines ++ lines') =
      (((a.emitLines lines).1.emitLines lines').1,
        (a.emitLines lines).2 ++ ((a.emitLines lines).1.emitLines lines').2) := by
  induction lines generalizing a with
  | nil => rfl
  | cons line lines ih =>
    rw [List.cons_append, emitLines_cons, emitLines_cons, ih, List.append_assoc]

/-- A text that ends where a line ends can be assembled by itself. -/
theorem emit_append (a : Assembler) {x : String}
    (hx : x = "" ∨ x.toList.getLast? = some '\n') (y : String) :
    a.emit (x ++ y) =
      (((a.emit x).1.emit y).1, (a.emit x).2 ++ ((a.emit x).1.emit y).2) := by
  have hsplit : splitLines (x ++ y).toList = splitLines x.toList ++ splitLines y.toList := by
    rw [String.toList_append]
    rcases hx with rfl | hx
    · rfl
    · obtain ⟨cs, hcs⟩ := List.getLast?_eq_some_iff.mp hx
      rw [hcs, List.append_assoc, List.singleton_append, splitLines_break]
  unfold emit
  rw [hsplit, emitLines_append]

/-! ## What a session reports -/

/-- The problems that the calls of a session report. -/
def reported (a : Assembler) : List Step → List Problem
  | [] => []
  | step :: steps => (a.perform step).2 ++ (a.perform step).1.reported steps

/-! ## Configuration -/

section

variable (base : UInt32) (externals : Std.TreeMap String UInt32) (a : Assembler)

theorem perform_configured {step : Step} (hstep : step.isConfiguration = false) :
    (configured base externals a).perform step =
      changed (configured base externals) (a.perform step) := by
  by_cases hassembling : step.isAssembling = true
  · exact (isUnseen_configured base externals).perform a hassembling
  · cases step with
    | listing => rfl
    | base address => cases hstep
    | external name value => cases hstep
    | _ => exact absurd rfl hassembling

/-- Calls that configure nothing do the same however the assembler is configured. -/
theorem run_configured {steps : List Step}
    (hsteps : ∀ step ∈ steps, step.isConfiguration = false) :
    (configured base externals a).run steps = configured base externals (a.run steps) ∧
      (configured base externals a).reported steps = a.reported steps := by
  induction steps generalizing a with
  | nil => exact ⟨rfl, rfl⟩
  | cons step steps ih =>
    rw [List.forall_mem_cons] at hsteps
    have hperform := perform_configured base externals a hsteps.1
    obtain ⟨hrun, hreported⟩ := ih (a.perform step).1 hsteps.2
    constructor
    · show ((configured base externals a).perform step).1.run steps = _
      rw [hperform]
      exact hrun
    · rw [reported, reported, hperform]
      exact congrArg ((a.perform step).2 ++ ·) hreported

/-- They leave the configuration as it is. -/
theorem configured_perform {step : Step} (hstep : step.isConfiguration = false) :
    configured a.base a.externals (a.perform step).1 = (a.perform step).1 := by
  have hself : configured a.base a.externals a = a := rfl
  have hperform := perform_configured a.base a.externals a hstep
  rw [hself] at hperform
  exact (congrArg Prod.fst hperform).symm

end

/-- A call that configures the assembler does nothing else, and reports nothing. -/
theorem exists_configured_perform (a : Assembler) {step : Step}
    (hstep : step.isConfiguration = true) :
    ∃ known, a.perform step = (configured (step.base?.getD a.base) known a, []) ∧
      ∀ name : String, known[name]? =
        (lastExternal? step.binding?.toList name).or a.externals[name]? := by
  cases step with
  | base address => exact ⟨a.externals, rfl, fun _ => rfl⟩
  | external name value =>
    exact ⟨(a.defineExternal name value).externals, rfl, getElem?_defineExternal a (name, value)⟩
  | _ => cases hstep

/-- **What a session does is what its calls do that configure nothing, with the last
configuration put in.** -/
theorem exists_configured (a : Assembler) (steps : List Step) :
    (∃ known, a.run steps = configured ((lastBase? steps).getD a.base) known
        (a.run (steps.filter (!·.isConfiguration))) ∧
      ∀ name : String, known[name]? =
        (lastExternal? (bindings steps) name).or a.externals[name]?) ∧
      a.reported steps = a.reported (steps.filter (!·.isConfiguration)) := by
  induction steps generalizing a with
  | nil => exact ⟨⟨a.externals, rfl, fun _ => rfl⟩, rfl⟩
  | cons step steps ih =>
    obtain ⟨⟨known, hrun, hknown⟩, hreported⟩ := ih (a.perform step).1
    by_cases hconfigures : step.isConfiguration = true
    · -- the call is the same change of the assembler, before the other calls or after them
      have hskip : (step :: steps).filter (!·.isConfiguration) =
          steps.filter (!·.isConfiguration) :=
        List.filter_cons_of_neg (by rw [hconfigures]; exact Bool.false_ne_true)
      obtain ⟨now, hperform, hnow⟩ := exists_configured_perform a hconfigures
      have hothers : ∀ other ∈ steps.filter (!·.isConfiguration),
          other.isConfiguration = false := by
        intro other hother
        simpa using (List.mem_filter.mp hother).2
      obtain ⟨hmoved, hsame⟩ := run_configured (step.base?.getD a.base) now a hothers
      rw [hperform] at hrun hknown hreported
      rw [hskip, reported, hperform]
      refine ⟨⟨known, ?_, fun name => ?_⟩, hreported.trans hsame⟩
      · show (a.perform step).1.run steps = _
        rw [hperform, lastBase?_cons, Option.getD_or]
        refine hrun.trans ?_
        rw [hmoved]
        rfl
      · rw [bindings_cons, lastExternal?_append, Option.or_assoc, ← hnow]
        exact hknown name
    · have hkeeps := configured_perform a (Bool.eq_false_iff.mpr hconfigures)
      have hstays : (step :: steps).filter (!·.isConfiguration) =
          step :: steps.filter (!·.isConfiguration) :=
        List.filter_cons_of_pos (by rw [Bool.eq_false_iff.mpr hconfigures]; rfl)
      have hbase : (a.perform step).1.base = a.base := (congrArg Assembler.base hkeeps).symm
      have hexternals : (a.perform step).1.externals = a.externals :=
        (congrArg Assembler.externals hkeeps).symm
      have hnothing : step.base? = none ∧ step.binding? = none := by
        cases step <;> first | exact ⟨rfl, rfl⟩ | exact absurd rfl hconfigures
      rw [hbase] at hrun
      rw [hexternals] at hknown
      rw [hstays, lastBase?_cons, bindings_cons, hnothing.1, hnothing.2, Option.or_none]
      exact ⟨⟨known, hrun, hknown⟩, congrArg ((a.perform step).2 ++ ·) hreported⟩

/-! ## Finishing -/

/-- Carrying out a request depends on the base address and on the values of the symbols
only. -/
theorem resolve_congr {a b : Assembler} (hbase : a.base = b.base)
    (hvalue : a.symbolValue? = b.symbolValue?) : Linking.resolve a = Linking.resolve b := by
  funext l r
  unfold Linking.resolve
  rw [hbase, hvalue]

/-- Finishing depends on what the symbols from outside are, not on how they are kept. -/
theorem finish_configured {base : UInt32} {known known' : Std.TreeMap String UInt32}
    (h : ∀ name : String, known[name]? = known'[name]?) (a : Assembler) :
    (configured base known a).finish = (configured base known' a).finish := by
  have hvalue : (configured base known a).symbolValue? =
      (configured base known' a).symbolValue? := by
    funext name
    cases hlabel : a.labelIndex[name]? with
    | some i =>
      exact (symbolValue?_of_label (a := configured base known a) hlabel).trans
        (symbolValue?_of_label (a := configured base known' a) hlabel).symm
    | none =>
      rw [symbolValue?_of_no_label (a := configured base known a) hlabel,
        symbolValue?_of_no_label (a := configured base known' a) hlabel]
      exact congrArg _ (h name)
  have hlink : (configured base known a).link = (configured base known' a).link := by
    unfold link
    rw [resolve_congr (a := configured base known a) (b := configured base known' a) rfl hvalue]
    rfl
  unfold finish
  rw [hlink]
  rfl

/-- Finishing depends on the calls that configure nothing, on the address that is set last
and on the values that symbols are given last. -/
theorem finish_run_congr (a : Assembler) {steps steps' : List Step}
    (hothers : steps.filter (!·.isConfiguration) = steps'.filter (!·.isConfiguration))
    (hbase : lastBase? steps = lastBase? steps')
    (hexternals : ∀ name, lastExternal? (bindings steps) name =
      lastExternal? (bindings steps') name) :
    (a.run steps).finish = (a.run steps').finish ∧ a.reported steps = a.reported steps' := by
  obtain ⟨⟨known, hrun, hknown⟩, hreported⟩ := a.exists_configured steps
  obtain ⟨⟨known', hrun', hknown'⟩, hreported'⟩ := a.exists_configured steps'
  constructor
  · rw [hrun, hrun', hothers, hbase]
    refine finish_configured (fun name => ?_) _
    rw [hknown, hknown', hexternals]
  · rw [hreported, hreported', hothers]

/-! ## The listing -/

/-- Turning on the listing is all that a muted assembler misses. -/
theorem muted_run (a : Assembler) (steps : List Step) :
    muted (a.run steps) = (muted a).run (steps.filter (!·.isListing)) ∧
      a.reported steps = (muted a).reported (steps.filter (!·.isListing)) := by
  induction steps generalizing a with
  | nil => exact ⟨rfl, rfl⟩
  | cons step steps ih =>
    obtain ⟨hrun, hreported⟩ := ih (a.perform step).1
    by_cases hlisting : step.isListing = true
    · have hskip : (step :: steps).filter (!·.isListing) = steps.filter (!·.isListing) :=
        List.filter_cons_of_neg (by rw [hlisting]; exact Bool.false_ne_true)
      rw [hskip]
      cases step with
      | listing => exact ⟨hrun, hreported⟩
      | _ => cases hlisting
    · have hstays : (step :: steps).filter (!·.isListing) =
          step :: steps.filter (!·.isListing) :=
        List.filter_cons_of_pos (by rw [Bool.eq_false_iff.mpr hlisting]; rfl)
      have hperform : (muted a).perform step = changed muted (a.perform step) := by
        by_cases hassembling : step.isAssembling = true
        · exact isUnseen_muted.perform a hassembling
        · cases step with
          | base address => rfl
          | external name value => rfl
          | listing => exact absurd rfl hlisting
          | _ => exact absurd rfl hassembling
      rw [hstays]
      constructor
      · refine hrun.trans ?_
        show _ = ((muted a).perform step).1.run _
        rw [hperform]
        rfl
      · rw [reported, reported, hperform]
        exact congrArg ((a.perform step).2 ++ ·) hreported

/-- A program without its listing is finished to the same image, but for the source text
in it. -/
theorem finish_muted (a : Assembler) :
    (muted a).finish = a.finish.map Image.withoutNotes := by
  have hlink : (muted a).link = a.link := by
    unfold link
    rw [resolve_congr (a := muted a) (b := a) rfl rfl]
    rfl
  have hrejections : (muted a).rejections = a.rejections := rfl
  unfold finish
  rw [hlink, hrejections]
  cases Report.ofProblems? a.rejections <;> rfl

/-- **The order of calls counts only where they assemble something.** Text can be assembled
in chunks that end where lines end. What a session reports and is finished to depends on
the calls that configure nothing, on the address that is set last and on the values that
symbols are given last; so calls that configure the assembler can be moved anywhere as long
as they keep their order. Without the calls that turn on the listing it is the same, but
for the source text in the image. -/
theorem order_of_calls (a : Assembler) :
    (∀ x y : String, x = "" ∨ x.toList.getLast? = some '\n' →
      a.emit (x ++ y) =
        (((a.emit x).1.emit y).1, (a.emit x).2 ++ ((a.emit x).1.emit y).2)) ∧
    (∀ steps steps' : List Step,
      steps.filter (!·.isConfiguration) = steps'.filter (!·.isConfiguration) →
      lastBase? steps = lastBase? steps' →
      (∀ name, lastExternal? (bindings steps) name = lastExternal? (bindings steps') name) →
      (a.run steps).finish = (a.run steps').finish ∧ a.reported steps = a.reported steps') ∧
    (∀ steps steps' : List Step,
      steps.filter (!·.isConfiguration) = steps'.filter (!·.isConfiguration) →
      steps.filter Step.isConfiguration = steps'.filter Step.isConfiguration →
      (a.run steps).finish = (a.run steps').finish ∧ a.reported steps = a.reported steps') ∧
    ∀ steps : List Step,
      (a.run (steps.filter (!·.isListing))).finish.map Image.withoutNotes =
          (a.run steps).finish.map Image.withoutNotes ∧
        a.reported (steps.filter (!·.isListing)) = a.reported steps := by
  refine ⟨fun x y hx => a.emit_append hx y, fun steps steps' => a.finish_run_congr, ?_, ?_⟩
  · intro steps steps' hothers hconfigures
    refine a.finish_run_congr hothers ?_ fun name => ?_
    · rw [← lastBase?_filter steps, hconfigures, lastBase?_filter]
    · rw [← bindings_filter steps, hconfigures, bindings_filter]
  · intro steps
    have hall := a.muted_run steps
    have hfewer := a.muted_run (steps.filter (!·.isListing))
    rw [List.filter_filter] at hfewer
    simp only [Bool.and_self] at hfewer
    constructor
    · rw [← finish_muted, ← finish_muted, hall.1, hfewer.1]
    · rw [hall.2, hfewer.2]

/-- Text in two chunks, and a session that is configured twice and keeps its source text. -/
theorem order_of_calls_port :
    let once := [Step.external "port" 0x5000, .base 0x8000, .emit "start: .dw port, start"]
    let twice := [Step.base 0, .external "port" 1, .emit "start: .dw port, start",
      .external "port" 0x5000, .base 0x8000]
    ({} : Assembler).emit ("start: .db 1\n" ++ ".dw start") =
        (((({} : Assembler).emit "start: .db 1\n").1.emit ".dw start").1,
          (({} : Assembler).emit "start: .db 1\n").2 ++
            ((({} : Assembler).emit "start: .db 1\n").1.emit ".dw start").2) ∧
      (run {} twice).finish = (run {} once).finish ∧
      (run {} once).finish.map Image.withoutNotes =
        (run {} (.listing :: once)).finish.map Image.withoutNotes := by
  intro once twice
  obtain ⟨hchunks, hdepends, -, hlisting⟩ := order_of_calls {}
  have hlast : ∀ name,
      lastExternal? (bindings twice) name = lastExternal? (bindings once) name := by
    intro name
    show lastExternal? ([("port", 1)] ++ [("port", 0x5000)]) name =
      lastExternal? [("port", 0x5000)] name
    rw [lastExternal?_append, lastExternal?_singleton, lastExternal?_singleton]
    by_cases hname : "port" = name
    · rw [if_pos hname, if_pos hname]
      rfl
    · rw [if_neg hname, if_neg hname]
      rfl
  exact ⟨hchunks _ _ (Or.inr (by decide)), (hdepends twice once rfl rfl hlast).1,
    (hlisting (.listing :: once)).1⟩

end Assembler

end Stm8
