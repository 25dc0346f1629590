import Stm8.Proofs.Assembler.Linking
import Stm8.Proofs.Line.Labels
import Stm8.Proofs.Line.Source
import Stm8.Proofs.Operand.Spelling
import Stm8.Proofs.Value.Numerals

/-!
# References to labels

A label can be referred to by its name, unless the name means something else in an operand:
a register, a symbol in page zero, or a number.

> `branch_to_label`: a branch to its own label goes back by its own length, and a name that
> is a number is that number.
-/

namespace Stm8

open Stm8.Text

/-! ## Operands -/

/-- A name that is neither a register nor marked as lying in page zero is an address. -/
theorem Operand.parse_name {name : List Char} (hname : isSymbolName name = true)
    (hregister : Register.named? name = none)
    (hshort : ∀ ending ∈ [".short", ".s"], dropEnding? ending.toList name = none) {v : Value}
    (hv : Value.parse? name = some v) (span : Span) :
    Operand.parse name span = .ok { kind := .directMemory, value := some v, span } := by
  have hplain : ∀ c ∈ name, isPlain c = true := fun c hc => (isPlain_of_isSymbolName hname hc).1
  have hsplit : splitShort name = (name, false) := by
    unfold splitShort
    simp only [trimEnd_eq_self (isBlank_of_plain hplain), hshort ".short" (by decide),
      hshort ".s" (by decide)]
  have hclassify : classify name = .ok (.directMemory, some v) := by
    rw [classify_of_plain (ne_nil_of_isSymbolName hname) hplain]
    unfold classifyPlain
    simp only [hregister, hsplit, valueIn, hv]
    rfl
  rw [parse, hclassify]

/-! ## Branches -/

/-- The form of a branch that is always taken. -/
def jra : Form := ⟨"jra", [.relative], 0x20⟩

/-- The piece of a branch to an address. -/
theorem Piece.ofCommand_jra {c : Command} {name : String} {v : Value} {e : Span → Encoding}
    (hc : c.name.text = "jra") (hops : c.operands.map Part.text = [name])
    (hread : ∀ span, Operand.parse name.toList span =
      .ok { kind := .directMemory, value := some v, span })
    (he : ∀ span, jra.encode [{ kind := .directMemory, value := some v, span }] = .ok (e span)) :
    ∃ span, ofCommand c = .ok (ofEncoding (e span)) := by
  obtain ⟨p, hp, rfl⟩ := List.map_eq_singleton_iff.mp hops
  have hdirective : c.isDirective = false := by
    rw [Command.isDirective, hc]
    decide
  refine ⟨p.span, ?_⟩
  rw [ofCommand, hdirective, if_neg Bool.false_ne_true, ofInstruction_eq_ok]
  refine ⟨[{ kind := .directMemory, value := some v, span := p.span }], jra, _, ?_, ?_,
    he p.span, rfl⟩
  · rw [hp, readOperands, hread]
    rfl
  · rw [hc]
    rfl

/-- A branch to a symbol asks for the distance. -/
theorem encode_jra_symbol (name : String) (span : Span) :
    jra.encode [{ kind := .directMemory, value := some (.ofName name), span }] =
      .ok ⟨⟨[0x20, filler], by decide⟩, [⟨1, .relative8, name, 0, span⟩], []⟩ := rfl

/-- A branch to a number takes the number for the distance. -/
theorem encode_jra_const {n : Nat} (hn : n ≤ 127) (span : Span) :
    jra.encode [{ kind := .directMemory, value := some (.const n), span }] =
      .ok ⟨⟨[0x20, UInt8.ofInt n], by simp⟩, [], []⟩ := by
  have hrange : ∀ e : Encoding, e.checkRange .relative n span = e := by
    intro e
    refine if_neg ?_
    rw [Bool.or_eq_true, decide_eq_true_iff, decide_eq_true_iff]
    show ¬((n : Int) < -128 ∨ 127 < (n : Int))
    omega
  have hplace : ∀ e : Encoding, e.place 0 .relative
      { kind := .directMemory, value := some (.const n), span } =
        (e.append [UInt8.ofInt n]).mapError .overflow := by
    intro e
    show ((e.checkRange .relative n span).append [UInt8.ofInt n]).mapError Mismatch.overflow = _
    rw [hrange]
  show ((((⟨⟨[0x20], by decide⟩, [], []⟩ : Encoding).place 0 .relative
    { kind := .directMemory, value := some (.const n), span }) >>= pure).mapError
      (Problem.noEncoding "jra")) = _
  rw [hplace]
  rfl

/-! ## A branch to its own label -/

section

variable {base : UInt32} {externals : List (String × UInt32)}

/-- A line with one label and a command that has a piece is not rejected at the start of a
program. -/
theorem Assembler.problems_emitLine_empty {text : List Char} {p : Part} {c : Command}
    {piece : Piece} (hparse : Line.parse (withoutBreak text) 1 0 = .ok ⟨[p], some c⟩)
    (hpiece : Piece.ofCommand c = .ok piece) :
    ((empty base externals).emitLine text).2 = none := by
  obtain ⟨known, hempty, -⟩ := empty_spec base externals
  have hdefine : ∃ next, (empty base externals).defineLabels [p] = (next, none) := by
    have hnew : ({ base, externals := known } : Assembler).labelIndex[p.text]? = none :=
      Std.TreeMap.getElem?_emptyc
    rw [hempty, defineLabels, defineLabel, hnew]
    exact ⟨_, rfl⟩
  obtain ⟨next, hdefine⟩ := hdefine
  show ((empty base externals).statement _ ((empty base externals).lines + 1)
    (empty base externals).sourceBytes).2 = none
  have hstart : (empty base externals).lines = 0 ∧ (empty base externals).sourceBytes = 0 := by
    rw [hempty]
    exact ⟨rfl, rfl⟩
  rw [statement, hstart.1, hstart.2, hparse, withResult_ok, hdefine, proceed_none]
  dsimp only
  rw [command_eq, hpiece, withResult_ok]

/-- The number of a branch to the label in front of it, wherever it stands. -/
theorem number?_jra {line : Line} {piece : Piece} {name : String}
    (hlabel : line.labels.any (·.text == name) = true) (span : Span) :
    (Relocation.mk 1 .relative8 name 0 span).number? base
      (entryValue? base externals [(line, piece)]) = some (-2) := by
  have hvalue : entryValue? base externals [(line, piece)] name =
      some (base.toNat + (0 : Nat) : Int) := by
    rw [entryValue?, labelOffsetFrom?, if_pos hlabel]
  have hnumber : (Relocation.mk 1 .relative8 name 0 span).value base (base.toNat + (0 : Nat)) =
      -2 := by
    have hsum : (base.toNat + (0 : Nat) : Int) + 0 - (base.toNat + (1 : Nat) + 1) = -2 := by
      omega
    rw [Relocation.value_eq_wrap, Relocation.sum]
    exact congrArg Quantity.wrap hsum
  unfold Relocation.number?
  rw [hvalue]
  dsimp only
  rw [hnumber]
  rfl

/-- A line with a label and a branch to what its name is in an operand. -/
theorem assemble_jra {name : String} {v : Value} {e : Span → Encoding} {bytes : List UInt8}
    (hname : isSymbolName name.toList = true)
    (hread : ∀ span, Operand.parse name.toList span =
      .ok { kind := .directMemory, value := some v, span })
    (he : ∀ span, jra.encode [{ kind := .directMemory, value := some v, span }] = .ok (e span))
    (hbytes : ∀ line span, line.labels.any (·.text == name) = true →
      Piece.ofLine line = .ok (Piece.ofEncoding (e span)) →
        IsAssembly base externals [(line, Piece.ofEncoding (e span))] bytes) :
    assemble (name ++ ": jra " ++ name) base externals = .ok bytes := by
  have hplain : ∀ c ∈ name.toList, isPlain c = true := fun c hc =>
    (isPlain_of_isSymbolName hname hc).1
  have hword : Line.IsWord "jra".toList := ⟨by decide, by decide⟩
  have hoperand : Line.IsOperand name.toList :=
    ⟨ne_nil_of_isSymbolName hname,
      fun c hc => ⟨isBlank_of_isPlain (hplain c hc), ne_of_isPlain (hplain c hc) rfl⟩,
      Line.depthAfter?_plain hplain 0⟩
  obtain ⟨p, c, hp, hc, hops, hparse⟩ := Line.parse_labelled hname hword hoperand 1 0
  rw [String.ofList_toList] at hp hc hops
  obtain ⟨span, hpiece⟩ := Piece.ofCommand_jra hc hops hread he
  -- the text is a single line
  let text := name.toList ++ ':' :: ' ' :: ("jra".toList ++ ' ' :: name.toList)
  have htext : (name ++ ": jra " ++ name).toList = text := by
    rw [String.toList_append, String.toList_append, List.append_assoc]
    rfl
  have hline : Assembler.IsLine text := by
    refine ⟨by simp [text], fun c hc => ?_⟩
    simp only [text, List.mem_append, List.mem_cons] at hc
    rcases hc with hc | rfl | rfl | hc | rfl | hc
    · exact ⟨ne_of_isPlain (hplain c hc) rfl, ne_of_isPlain (hplain c hc) rfl⟩
    · decide
    · decide
    · exact ⟨ne_of_isPlain (hword.plain c hc) rfl, ne_of_isPlain (hword.plain c hc) rfl⟩
    · decide
    · exact ⟨ne_of_isPlain (hplain c hc) rfl, ne_of_isPlain (hplain c hc) rfl⟩
  have hself : Assembler.withoutBreak text = text := Assembler.withoutBreak_eq_self hline.solid
  replace hparse : Line.parse (Assembler.withoutBreak text) 1 0 = .ok ⟨[p], some c⟩ := by
    rw [hself]
    exact hparse
  have hassembly := hbytes ⟨[p], some c⟩ span (by simp [hp]) hpiece
  have hlines : Line.parseAll 0 0 [text] = .ok [⟨[p], some c⟩] := by
    rw [Line.parseAll, hparse]
    rfl
  have hnone : (Assembler.emitLines (Assembler.empty base externals) [text]).2 = [] := by
    show ((Assembler.empty base externals).emitLine text).2.toList ++ [] = []
    rw [Assembler.problems_emitLine_empty hparse hpiece]
    rfl
  refine assemble_of_accepted ?_ ?_ hassembly
  · rw [htext, Assembler.splitLines_of_isLine hline]
    exact hlines
  · rw [Assembler.emit, htext, Assembler.splitLines_of_isLine hline]
    exact hnone

/-- A branch to its own label goes back by its own length. -/
theorem assemble_jra_symbol {name : String} (hname : isSymbolName name.toList = true)
    (hread : ∀ span, Operand.parse name.toList span =
      .ok { kind := .directMemory, value := some (.ofName name), span }) :
    assemble (name ++ ": jra " ++ name) base externals = .ok [0x20, 0xFE] := by
  refine assemble_jra hname hread (encode_jra_symbol name) fun line span hlabel hpiece => ?_
  have hnumber : ∀ piece, (Relocation.mk 1 .relative8 name 0 span).number? base
      (entryValue? base externals [(line, piece)]) = some (-2) :=
    fun piece => number?_jra hlabel span
  refine ⟨by rwa [List.forall_mem_singleton], rfl, ?_, ?_⟩
  · show ∀ r ∈ [(⟨1, .relative8, name, 0, span⟩ : Relocation)], _
    rw [List.forall_mem_singleton]
    exact Option.isSome_of_mem (hnumber _)
  · show _ = Relocation.patch base _ 0 [(⟨1, .relative8, name, 0, span⟩ : Relocation)]
      [0x20, filler]
    rw [Relocation.patch_cons, Relocation.shift_zero, hnumber]
    rfl

/-- A branch to a number does not depend on the label. -/
theorem assemble_jra_const {name : String} {n : Nat} (hname : isSymbolName name.toList = true)
    (hread : ∀ span, Operand.parse name.toList span =
      .ok { kind := .directMemory, value := some (.const n), span }) (hn : n ≤ 127) :
    assemble (name ++ ": jra " ++ name) base externals = .ok [0x20, UInt8.ofInt n] := by
  refine assemble_jra hname hread (encode_jra_const hn) fun line span _ hpiece => ?_
  refine ⟨by rwa [List.forall_mem_singleton], rfl, ?_, rfl⟩
  show ∀ r ∈ ([] : List Relocation), _
  exact fun r hr => absurd hr List.not_mem_nil

end

/-- **Labels can be referred to.** A label that is neither a register nor marked as lying in
page zero is an address in an operand. Unless it is a number, the address is that of the
label, so that a branch to its own label goes back by its own length. -/
theorem branch_to_label {text : List Char} {number offset : Nat} {l : Line}
    (hparse : Line.parse text number offset = .ok l) {p : Part} (hp : p ∈ l.labels)
    (hregister : Register.named? p.text.toList = none)
    (hshort : ∀ ending ∈ [".short", ".s"], dropEnding? ending.toList p.text.toList = none) :
    ((∀ n, ¬ IsNumeral p.text.toList n) →
      (∀ span, Operand.parse p.text.toList span =
        .ok { kind := .directMemory, value := some (.ofName p.text), span }) ∧
      ∀ base externals,
        assemble (p.text ++ ": jra " ++ p.text) base externals = .ok [0x20, 0xFE]) ∧
    ∀ n, IsNumeral p.text.toList n →
      (∀ span, Operand.parse p.text.toList span =
        .ok { kind := .directMemory, value := some (.const n), span }) ∧
      (n ≤ 127 → ∀ base externals,
        assemble (p.text ++ ": jra " ++ p.text) base externals = .ok [0x20, UInt8.ofInt n]) := by
  have hname := Line.isSymbolName_of_mem_labels hparse hp
  refine ⟨fun hno => ?_, fun n hn => ?_⟩
  · have hread := Operand.parse_name hname hregister hshort
      (Value.parse?_of_name hname (Number.parse?_eq_none_of_name hname hno))
    exact ⟨hread, fun base externals => assemble_jra_symbol hname hread⟩
  · have hread := Operand.parse_name hname hregister hshort (Value.parse?_of_numeral hname hn)
    exact ⟨hread, fun hsmall base externals => assemble_jra_const hname hread hsmall⟩

/-- A name with too many digits for a number. -/
theorem branch_to_label_long :
    let name := "_9223372036854775808"
    (∃ l, Line.parse (name ++ ":").toList 1 0 = .ok l ∧ l.labels.map Part.text = [name]) ∧
      Register.named? name.toList = none ∧
      (∀ ending ∈ [".short", ".s"], dropEnding? ending.toList name.toList = none) ∧
      (∀ n, ¬ IsNumeral name.toList n) ∧
      assemble (name ++ ": jra " ++ name) 0x8000 [(name, 7)] = .ok [0x20, 0xFE] := by
  intro name
  have hparse : Line.parse (name ++ ":").toList 1 0 = .ok ⟨[⟨name, ⟨1, 1, 0, 20⟩⟩], none⟩ := by
    decide +kernel
  have hregister : Register.named? name.toList = none := by decide
  have hshort : ∀ ending ∈ [".short", ".s"], dropEnding? ending.toList name.toList = none := by
    decide
  have hno : ∀ n, ¬ IsNumeral name.toList n := by
    intro n hn
    have hvalue : positional 10 ((name.toList.filter (· != '_')).map fun c => c.toNat - 48) =
        9223372036854775808 := by decide
    have hsmall := hn.small
    rw [← hn.value, hvalue] at hsmall
    exact absurd hsmall (by decide)
  obtain ⟨hsymbol, -⟩ := branch_to_label hparse List.mem_cons_self hregister hshort
  exact ⟨⟨_, hparse, rfl⟩, hregister, hshort, hno, (hsymbol hno).2 _ _⟩

/-- The label `_1` is a number in an operand, and a branch to it is one to the next byte but
one. -/
theorem not_branch_to_label_numeral :
    (∃ l, Line.parse "_1:".toList 1 0 = .ok l ∧ l.labels.map Part.text = ["_1"]) ∧
      Register.named? "_1".toList = none ∧
      (∀ ending ∈ [".short", ".s"], dropEnding? ending.toList "_1".toList = none) ∧
      Operand.parse "_1".toList = .ok { kind := .directMemory, value := some (.const 1) } ∧
      assemble "_1: jra _1" 0 [] = .ok [0x20, 0x01] := by
  have hparse : Line.parse "_1:".toList 1 0 = .ok ⟨[⟨"_1", ⟨1, 1, 0, 2⟩⟩], none⟩ := by
    decide +kernel
  have hread : ∀ span, Operand.parse "_1".toList span =
      .ok { kind := .directMemory, value := some (.const (1 : Nat)), span } :=
    Operand.parse_name (by decide) (by decide) (by decide) (by decide +kernel)
  have htext : "_1: jra _1" = "_1" ++ ": jra " ++ "_1" := by decide
  rw [htext, assemble_jra_const (by decide) hread (by decide)]
  exact ⟨⟨_, hparse, rfl⟩, by decide, by decide, hread .nowhere, rfl⟩

end Stm8
