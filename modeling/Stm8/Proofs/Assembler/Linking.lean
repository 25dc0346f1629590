import Stm8.Program
import Stm8.Proofs.Assembler.Running

/-!
# What a complete program consists of

`finish` carries out the requests of all pieces on the bytes of all pieces. A program is
complete if every request has a number to write and nothing was noted:

> `exists_isAssembly`: a source text that is assembled has lines with pieces, and its
> bytes are those of the pieces with all numbers in them.
> `assemble_of_isAssembly`: lines without labels that have such pieces are assembled.
-/

namespace Stm8

open Relocation (patch)

/-! ## Symbols -/

/-- The last value that is given to the name. -/
def lastExternal? (externals : List (String × UInt32)) (name : String) : Option UInt32 :=
  (externals.reverse.find? (·.1 == name)).map (·.2)

/-- The value of a symbol in a program that consists of the entries: the address of its
label, or else the last value that it was given outside. -/
def entryValue? (base : UInt32) (externals : List (String × UInt32)) (entries : List Entry)
    (name : String) : Option Int :=
  match labelOffsetFrom? 0 entries name with
  | some offset => some (base.toNat + offset)
  | none => (lastExternal? externals name).map fun v => (v.toNat : Int)

/-- Without labels, the symbols have the values that they were given outside. -/
theorem entryValue?_of_unlabelled {base : UInt32} {externals : List (String × UInt32)}
    {entries : List Entry} (h : ∀ entry ∈ entries, entry.1.labels = []) (name : String) :
    entryValue? base externals entries name =
      (lastExternal? externals name).map fun v => (v.toNat : Int) := by
  have hnone : ∀ start, labelOffsetFrom? start entries name = none := by
    induction entries with
    | nil => exact fun _ => rfl
    | cons entry entries ih =>
      rw [List.forall_mem_cons] at h
      intro start
      rw [labelOffsetFrom?, h.1]
      exact ih h.2 _
  unfold entryValue?
  rw [hnone]

namespace Assembler

theorem symbolValue?_of_label {a : Assembler} {name : String} {i : Nat}
    (h : a.labelIndex[name]? = some i) :
    a.symbolValue? name = some (a.base.toNat + (a.labels[i]?.getD default).offset : Int) := by
  rw [symbolValue?, h]

theorem symbolValue?_of_no_label {a : Assembler} {name : String}
    (h : a.labelIndex[name]? = none) :
    a.symbolValue? name = a.externals[name]?.map fun v => (v.toNat : Int) := by
  rw [symbolValue?, h]

/-- The program with symbols from outside, which are defined one after another. -/
def withExternals (a : Assembler) (externals : List (String × UInt32)) : Assembler :=
  externals.foldl (fun a (name, value) => a.defineExternal name value) a

/-- The empty program. -/
def empty (base : UInt32) (externals : List (String × UInt32)) : Assembler :=
  externals.foldl (fun a (name, value) => a.defineExternal name value) { base }

/-- The values that are given later count. -/
theorem lastExternal?_append (externals externals' : List (String × UInt32)) (name : String) :
    lastExternal? (externals ++ externals') name =
      (lastExternal? externals' name).or (lastExternal? externals name) := by
  unfold lastExternal?
  rw [List.reverse_append, List.find?_append, Option.map_or]

theorem lastExternal?_singleton (x : String × UInt32) (name : String) :
    lastExternal? [x] name = if x.1 = name then some x.2 else none := by
  show ([x].find? (·.1 == name)).map (·.2) = _
  rw [List.find?_cons]
  by_cases h : x.1 = name
  · rw [if_pos h, beq_iff_eq.mpr h]
    rfl
  · rw [if_neg h, beq_eq_false_iff_ne.mpr h]
    rfl

/-- What is known after one more symbol has been defined outside. -/
theorem getElem?_defineExternal (a : Assembler) (x : String × UInt32) (name : String) :
    (a.defineExternal x.1 x.2).externals[name]? =
      (lastExternal? [x] name).or a.externals[name]? := by
  rw [defineExternal, lastExternal?_singleton, Std.TreeMap.getElem?_insert]
  by_cases h : x.1 = name
  · subst h
    rw [if_pos Std.ReflCmp.compare_self, if_pos rfl]
    rfl
  · rw [if_neg fun heq => h (Std.LawfulEqCmp.eq_of_compare heq), if_neg h]
    rfl

/-- Symbols from outside come behind those that are known already, and change nothing
else. -/
theorem withExternals_spec (a : Assembler) (externals : List (String × UInt32)) :
    ∃ known, a.withExternals externals = { a with externals := known } ∧
      ∀ name : String, known[name]? = (lastExternal? externals name).or a.externals[name]? := by
  induction externals generalizing a with
  | nil => exact ⟨a.externals, rfl, fun name => rfl⟩
  | cons x externals ih =>
    obtain ⟨known, hknown, hget⟩ := ih (a.defineExternal x.1 x.2)
    refine ⟨known, hknown, fun name => ?_⟩
    rw [hget, getElem?_defineExternal, ← Option.or_assoc, ← lastExternal?_append]
    rfl

/-- The empty program knows the symbols from outside, and nothing else. -/
theorem empty_spec (base : UInt32) (externals : List (String × UInt32)) :
    ∃ known, empty base externals = { base, externals := known } ∧
      ∀ name : String, known[name]? = lastExternal? externals name := by
  obtain ⟨known, hknown, hget⟩ := withExternals_spec { base } externals
  refine ⟨known, hknown, fun name => ?_⟩
  rw [hget, Std.TreeMap.getElem?_emptyc, Option.or_none]

/-- The symbols of a program that was empty before its lines. -/
theorem symbolValue?_of_isExtendedBy {base : UInt32} {externals : List (String × UInt32)}
    {entries : List Entry} {a : Assembler} (h : (empty base externals).IsExtendedBy entries a) :
    a.symbolValue? = entryValue? base externals entries := by
  obtain ⟨known, hempty, hknown⟩ := empty_spec base externals
  rw [hempty] at h
  funext name
  have hlabels := h.labels name
  rw [show labelOffset? { base, externals := known } name = none from rfl, Option.none_or]
    at hlabels
  unfold symbolValue? entryValue?
  rw [← show _ = labelOffsetFrom? 0 entries name from hlabels, labelOffset?, h.base, h.externals]
  cases a.labelIndex[name]? with
  | some i => rfl
  | none => exact congrArg (Option.map fun v : UInt32 => (v.toNat : Int)) (hknown name)

/-! ## Carrying out requests -/

/-- A program without rejections overflows if one of its requests does. -/
theorem overflows_eq_false_iff {a : Assembler} (h : a.rejections = []) :
    a.overflows = false ↔ ∀ r ∈ a.relocations, ∀ target, a.symbolValue? r.symbol = some target →
      r.overflows a.base target = false := by
  unfold overflows
  rw [h, List.isEmpty_nil, Bool.true_and, List.any_eq_false]
  refine forall₂_congr fun r _ => ?_
  rw [Bool.not_eq_true]
  cases a.symbolValue? r.symbol <;> simp

/-- Requests for fields inside the code write their numbers, report what is wrong, and
are left over if their symbols have no value. -/
theorem foldl_resolve {a : Assembler} {rs : List Relocation} :
    ∀ l : Linking, (∀ r ∈ rs, r.FitsIn l.code.length) →
      rs.foldl (Linking.resolve a) l = {
        code := patch a.base a.symbolValue? 0 rs l.code
        diagnostics := l.diagnostics ++ rs.filterMap (·.problem? a.base a.symbolValue?)
        leftover := l.leftover ++ rs.filter fun r => (a.symbolValue? r.symbol).isNone } := by
  induction rs with
  | nil =>
    intro l _
    simp [patch]
  | cons r rs ih =>
    intro l hfits
    rw [List.forall_mem_cons] at hfits
    obtain ⟨hfits, hrest⟩ := hfits
    rw [List.foldl_cons, Relocation.patch_cons, Relocation.shift_zero, List.filterMap_cons,
      List.filter_cons, Linking.resolve]
    cases htarget : a.symbolValue? r.symbol with
    | none =>
      have hnumber : r.number? a.base a.symbolValue? = none := by
        rw [Relocation.number?, htarget]
      have hproblem : r.problem? a.base a.symbolValue? = none := by
        rw [Relocation.problem?, htarget]
      rw [hnumber, hproblem]
      dsimp only
      rw [ih { l with leftover := l.leftover ++ [r] } hrest, Option.isNone_none, if_pos rfl,
        List.append_assoc, List.singleton_append]
    | some target =>
      rw [Option.isNone_some, if_neg Bool.false_ne_true]
      rcases Relocation.apply_cases hfits htarget with
        ⟨v, hnumber, hproblem, happly⟩ | ⟨problem, hnumber, hproblem, happly⟩
      · rw [hnumber, hproblem]
        dsimp only
        rw [happly, Option.toList_none, List.append_nil]
        rw [← Relocation.length_write hfits v] at hrest
        rw [ih { l with code := r.write l.code v } hrest]
      · rw [hnumber, hproblem]
        dsimp only
        rw [happly, Option.toList_some]
        dsimp only
        rw [ih { l with diagnostics := l.diagnostics ++ [problem] } hrest, List.append_assoc,
          List.singleton_append]

/-- What remains of the requests of a program, all of which are for fields inside its
code. -/
theorem link_eq {a : Assembler} (h : ∀ r ∈ a.relocations, r.FitsIn a.code.length) :
    a.link = {
      code := patch a.base a.symbolValue? 0 a.relocations a.code
      diagnostics := a.diagnostics ++ a.relocations.filterMap (·.problem? a.base a.symbolValue?)
      leftover := a.relocations.filter fun r => (a.symbolValue? r.symbol).isNone } := by
  rw [link, foldl_resolve _ h, List.nil_append]

/-- Whether nothing is left over and nothing is wrong. -/
def Linking.IsComplete (l : Linking) : Prop :=
  l.diagnostics = [] ∧ l.leftover = []

/-- Nothing is missing if all requests have numbers to write. -/
theorem isComplete_link_iff {a : Assembler} (h : ∀ r ∈ a.relocations, r.FitsIn a.code.length) :
    a.link.IsComplete ↔ a.diagnostics = [] ∧
      ∀ r ∈ a.relocations, (r.number? a.base a.symbolValue?).isSome = true := by
  have hproblems : a.relocations.filterMap (·.problem? a.base a.symbolValue?) = [] ↔
      ∀ r ∈ a.relocations, r.problem? a.base a.symbolValue? = none :=
    List.filterMap_eq_nil_iff
  have hleftover : (a.relocations.filter fun r => (a.symbolValue? r.symbol).isNone) = [] ↔
      ∀ r ∈ a.relocations, a.symbolValue? r.symbol ≠ none := by
    rw [List.filter_eq_nil_iff]
    simp only [Option.isNone_iff_eq_none, ne_eq]
  unfold Linking.IsComplete
  rw [link_eq h, List.append_eq_nil_iff, hproblems, hleftover]
  simp only [Relocation.isSome_number?_iff]
  constructor
  · rintro ⟨⟨hnotes, hright⟩, hknown⟩
    exact ⟨hnotes, fun r hr => ⟨hknown r hr, hright r hr⟩⟩
  · rintro ⟨hnotes, hnumbers⟩
    exact ⟨⟨hnotes, fun r hr => (hnumbers r hr).2⟩, fun r hr => (hnumbers r hr).1⟩

/-! ## Finishing -/

/-- What a program without rejections is finished to. -/
def image (a : Assembler) : Image where
  bytes := a.link.code
  labels := a.labels.map fun label => (label.name, a.base + UInt32.ofNat label.offset)
  relocations := a.link.leftover
  diagnostics := a.link.diagnostics
  base := a.base
  notes := a.notes

theorem finish_eq_image {a : Assembler} (h : a.rejections = []) : a.finish = .ok a.image := by
  unfold finish
  rw [Report.ofProblems?_eq_none_iff.mpr h]
  rfl

/-- A program is finished, or all rejections are reported. -/
theorem finish_cases (a : Assembler) :
    (a.rejections = [] ∧ a.finish = .ok a.image) ∨
      ∃ report, Report.ofProblems? a.rejections = some report ∧ a.finish = .error report := by
  cases hreport : Report.ofProblems? a.rejections with
  | none =>
    have hnone := Report.ofProblems?_eq_none_iff.mp hreport
    exact Or.inl ⟨hnone, finish_eq_image hnone⟩
  | some report =>
    refine Or.inr ⟨report, rfl, ?_⟩
    unfold finish
    rw [hreport]

/-! ## Complete programs -/

/-- There is nothing to report on a program that is complete. -/
theorem report_eq_none_iff {a : Assembler} :
    Report.ofProblems? a.image.problems = none ↔ a.link.IsComplete := by
  rw [Report.ofProblems?_eq_none_iff, Image.problems, List.append_eq_nil_iff,
    List.map_eq_nil_iff]
  rfl

/-- A source text is assembled if no line is rejected and nothing is missing. -/
theorem assemble_eq_ok_iff {source : String} {base : UInt32}
    {externals : List (String × UInt32)} {bytes : List UInt8} :
    assemble source base externals = .ok bytes ↔
      ((empty base externals).emit source).1.rejections = [] ∧
        ((empty base externals).emit source).1.link.IsComplete ∧
        ((empty base externals).emit source).1.link.code = bytes := by
  show (((empty base externals).emit source).1.finish >>= _) = _ ↔ _
  -- only the last state counts from here on
  generalize ((empty base externals).emit source).1 = a
  rcases a.finish_cases with ⟨hrejections, hfinish⟩ | ⟨report, hreport, hfinish⟩
  · rw [hfinish, ok_bind, ← report_eq_none_iff]
    cases hreport : Report.ofProblems? a.image.problems with
    | some report =>
      constructor
      · intro h
        cases h
      · intro h
        cases h.2.1
    | none =>
      constructor
      · intro h
        injection h with h
        exact ⟨hrejections, rfl, h⟩
      · intro h
        exact congrArg _ h.2.2
  · rw [hfinish]
    constructor
    · intro h
      cases h
    · intro h
      rw [h.1] at hreport
      cases hreport

end Assembler

/-- What it means that a program consists of the pieces of its lines. -/
structure IsAssembly (base : UInt32) (externals : List (String × UInt32))
    (entries : List Entry) (bytes : List UInt8) : Prop where
  /-- Each line has its piece. -/
  pieces : ∀ entry ∈ entries, Piece.ofLine entry.1 = .ok entry.2
  /-- Nothing was noted. -/
  diagnostics : (Piece.concat (entries.map (·.2))).diagnostics = []
  /-- Every request has a number to write. -/
  numbers : ∀ r ∈ (Piece.concat (entries.map (·.2))).relocations,
    (r.number? base (entryValue? base externals entries)).isSome = true
  /-- The bytes are those of all pieces with all numbers in them. -/
  bytes : bytes = patch base (entryValue? base externals entries) 0
    (Piece.concat (entries.map (·.2))).relocations (Piece.concat (entries.map (·.2))).code

/-- The requests of pieces are for fields inside them. -/
theorem isClosed_of_pieces {entries : List Entry}
    (h : ∀ entry ∈ entries, Piece.ofLine entry.1 = .ok entry.2) :
    ∀ p ∈ entries.map (·.2), p.IsClosed := by
  intro p hp
  obtain ⟨entry, hentry, rfl⟩ := List.mem_map.mp hp
  exact Piece.isClosed_ofLine (h entry hentry)

section

variable {source : String} {base : UInt32} {externals : List (String × UInt32)}
  {entries : List Entry} {bytes : List UInt8}

open Assembler (empty splitLines)

/-- A program whose lines were not rejected is complete if it consists of their pieces. -/
theorem isAssembly_iff {a : Assembler}
    (h : (empty base externals).IsExtendedBy entries a)
    (hpieces : ∀ entry ∈ entries, Piece.ofLine entry.1 = .ok entry.2) :
    IsAssembly base externals entries bytes ↔ a.link.IsComplete ∧ a.link.code = bytes := by
  obtain ⟨known, hempty, -⟩ := Assembler.empty_spec base externals
  have hvalue := Assembler.symbolValue?_of_isExtendedBy h
  rw [hempty] at h
  have hbase : a.base = base := h.base
  have hcode : a.code = (Piece.concat (entries.map (·.2))).code := h.code
  have hdiagnostics : a.diagnostics = (Piece.concat (entries.map (·.2))).diagnostics :=
    h.diagnostics
  have hrelocations : a.relocations = (Piece.concat (entries.map (·.2))).relocations := by
    rw [h.relocations]
    simp [Relocation.shift]
  have hclosed : ∀ r ∈ a.relocations, r.FitsIn a.code.length := by
    rw [hrelocations, hcode]
    exact Piece.isClosed_concat (isClosed_of_pieces hpieces)
  rw [Assembler.isComplete_link_iff hclosed, Assembler.link_eq hclosed, hvalue, hbase, hcode,
    hrelocations]
  constructor
  · intro hassembly
    exact ⟨⟨hdiagnostics.trans hassembly.diagnostics, hassembly.numbers⟩,
      hassembly.bytes.symm⟩
  · intro hlinked
    obtain ⟨⟨hnotes, hnumbers⟩, hbytes⟩ := hlinked
    exact ⟨hpieces, hdiagnostics.symm.trans hnotes, hnumbers, hbytes.symm⟩

/-- The empty program has no labels. -/
theorem isIndexed_empty (base : UInt32) (externals : List (String × UInt32)) :
    (empty base externals).IsIndexed := by
  obtain ⟨known, hempty, -⟩ := Assembler.empty_spec base externals
  rw [hempty]
  intro name i hi
  have hnone : (({} : Std.TreeMap String Nat)[name]?) = none := Std.TreeMap.getElem?_emptyc
  rw [show _ = some i from hi] at hnone
  cases hnone

/-- The lines of a source text without rejections. -/
theorem exists_entries (h : ((empty base externals).emit source).2 = []) :
    ∃ entries, Line.parseAll 0 0 (splitLines source.toList) = .ok (entries.map (·.1)) ∧
      (∀ entry ∈ entries, Piece.ofLine entry.1 = .ok entry.2) ∧
      (empty base externals).IsExtendedBy entries ((empty base externals).emit source).1 := by
  obtain ⟨entries, hlines, hpieces, hentries⟩ :=
    Assembler.isExtendedBy_of_emitLines (isIndexed_empty base externals) h
  obtain ⟨known, hempty, -⟩ := Assembler.empty_spec base externals
  refine ⟨entries, ?_, hpieces, hentries⟩
  rw [hempty] at hlines
  exact hlines

/-- What was rejected is all that was reported. -/
theorem rejections_emit :
    ((empty base externals).emit source).1.rejections =
      ((empty base externals).emit source).2 := by
  obtain ⟨known, hempty, -⟩ := Assembler.empty_spec base externals
  show ((empty base externals).emitLines _).1.rejections = _
  rw [Assembler.rejections_emitLines, hempty]
  rfl

/-- A source text that is assembled consists of the pieces of its lines. -/
theorem exists_isAssembly (h : assemble source base externals = .ok bytes) :
    ∃ entries, Line.parseAll 0 0 (splitLines source.toList) = .ok (entries.map (·.1)) ∧
      IsAssembly base externals entries bytes := by
  obtain ⟨hrejections, hlinked⟩ := Assembler.assemble_eq_ok_iff.mp h
  rw [rejections_emit] at hrejections
  obtain ⟨entries, hlines, hpieces, hentries⟩ := exists_entries hrejections
  exact ⟨entries, hlines, (isAssembly_iff hentries hpieces).mpr hlinked⟩

/-- Lines determine their pieces. -/
theorem eq_of_lines {entries entries' : List Entry}
    (hlines : entries.map (·.1) = entries'.map (·.1))
    (hpieces : ∀ entry ∈ entries, Piece.ofLine entry.1 = .ok entry.2)
    (hpieces' : ∀ entry ∈ entries', Piece.ofLine entry.1 = .ok entry.2) :
    entries = entries' := by
  induction entries generalizing entries' with
  | nil => exact (List.map_eq_nil_iff.mp hlines.symm).symm
  | cons entry entries ih =>
    cases entries' with
    | nil => cases hlines
    | cons entry' entries' =>
      rw [List.forall_mem_cons] at hpieces hpieces'
      obtain ⟨hline, hlines⟩ := List.cons.inj hlines
      replace hline : entry.1 = entry'.1 := hline
      have hpiece : (.ok entry.2 : Except Problem Piece) = .ok entry'.2 := by
        rw [← hpieces.1, ← hpieces'.1, hline]
      injection hpiece with hpiece
      rw [ih hlines hpieces.2 hpieces'.2, Prod.ext hline hpiece]

/-- Lines that are not rejected are assembled if the program consists of their pieces. -/
theorem assemble_of_accepted
    (hlines : Line.parseAll 0 0 (splitLines source.toList) = .ok (entries.map (·.1)))
    (hnone : ((empty base externals).emit source).2 = [])
    (h : IsAssembly base externals entries bytes) :
    assemble source base externals = .ok bytes := by
  obtain ⟨entries', hlines', hpieces', hentries'⟩ := exists_entries hnone
  have hsame : entries' = entries := by
    rw [hlines] at hlines'
    injection hlines' with hlines'
    exact eq_of_lines hlines'.symm hpieces' h.pieces
  rw [hsame] at hentries' hpieces'
  rw [Assembler.assemble_eq_ok_iff, rejections_emit]
  exact ⟨hnone, (isAssembly_iff hentries' hpieces').mp h⟩

/-- Lines without labels are assembled if the program consists of their pieces. -/
theorem assemble_of_isAssembly
    (hlines : Line.parseAll 0 0 (splitLines source.toList) = .ok (entries.map (·.1)))
    (hlabels : ∀ entry ∈ entries, entry.1.labels = [])
    (h : IsAssembly base externals entries bytes) :
    assemble source base externals = .ok bytes := by
  obtain ⟨known, hempty, -⟩ := Assembler.empty_spec base externals
  refine assemble_of_accepted hlines ?_ h
  refine Assembler.problems_emitLines_eq_nil ?_
    fun entry hentry => ⟨hlabels entry hentry, h.pieces entry hentry⟩
  rw [hempty]
  exact hlines

end

end Stm8
