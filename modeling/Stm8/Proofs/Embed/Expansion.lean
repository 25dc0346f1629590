import Stm8.Embed.Expansion
import Stm8.Proofs.Embed.Denotation

/-!
# What an invocation is replaced by

The host language reads what an invocation is replaced by once more. It finds the machine
code in it, or the message of an error:

> `expansion_contract`: an invocation is replaced by its machine code exactly if it is
> spelled like one and its source is assembled, and else by an error at the token where it
> went wrong. Only a program that checks its arithmetic puts out neither, where a sum of the
> source overflows.
> `exists_expandChecked?_eq_none`: a source with such a sum.
-/

namespace Stm8.Embed

open Stm8.Text

/-! ## Reading constants and errors -/

/-- The bytes of literals such as `0x9Du8`, with a comma between any two. -/
def byteLiterals? : List Char → Option (List UInt8)
  | '0' :: 'x' :: high :: low :: 'u' :: '8' :: ',' :: ' ' :: rest =>
    (readDigits? 16 [high, low]).bind fun n => (byteLiterals? rest).map (UInt8.ofNat n :: ·)
  | ['0', 'x', high, low, 'u', '8'] =>
    (readDigits? 16 [high, low]).map fun n => [UInt8.ofNat n]
  | [] => some []
  | _ => none

/-- The bytes of a constant: what stands in the brackets behind the equals sign. -/
def constantBytes? (text : String) : Option (List UInt8) :=
  byteLiterals?
    ((((text.toList.dropWhile (· != '=')).dropWhile (· != '[')).drop 1).takeWhile (· != ']'))

/-- The length in the type of an array: what stands behind the first semicolon. -/
def declaredLength? (text : String) : Option Nat :=
  readDigits? 10 (((text.toList.dropWhile (· != ';')).drop 2).takeWhile (· != ']'))

/-- The message of an error: what its string literal stands for. -/
def errorMessage? (text : String) : Option String :=
  ((between? "compile_error!(\x22".toList "\x22)".toList text.toList).bind literalText?).map
    String.ofList

/-! ## Bytes -/

/-- The characters of one literal. -/
def byteText (b : UInt8) : List Char :=
  "0x".toList ++ (hexUpper 2 b.toNat).toList ++ "u8".toList

/-- A byte has two digits, which are read back. -/
theorem exists_hexUpper (b : UInt8) :
    ∃ high low, (hexUpper 2 b.toNat).toList = [high, low] ∧ high ≠ ']' ∧ low ≠ ']' ∧
      readDigits? 16 [high, low] = some b.toNat := by
  have hall : ∀ n < 256, (((Nat.toDigits 16 n).map Char.toUpper).leftpad 2 '0').length = 2 ∧
      ']' ∉ ((Nat.toDigits 16 n).map Char.toUpper).leftpad 2 '0' ∧
      readDigits? 16 (((Nat.toDigits 16 n).map Char.toUpper).leftpad 2 '0') = some n := by
    decide +kernel
  have hb := hall b.toNat b.toNat_lt
  rw [hexUpper, String.toList_ofList]
  generalize ((Nat.toDigits 16 b.toNat).map Char.toUpper).leftpad 2 '0' = digits at hb
  match digits, hb with
  | [high, low], ⟨_, hbracket, hread⟩ =>
    refine ⟨high, low, rfl, ?_, ?_, hread⟩
    · rintro rfl
      exact hbracket List.mem_cons_self
    · rintro rfl
      exact hbracket (List.mem_cons_of_mem _ List.mem_cons_self)

theorem not_mem_byteText (b : UInt8) : ']' ∉ byteText b := by
  obtain ⟨high, low, hdigits, hhigh, hlow, -⟩ := exists_hexUpper b
  rw [byteText, hdigits]
  simp [hhigh.symm, hlow.symm]

theorem byteLiterals?_last (high low : Char) :
    byteLiterals? ['0', 'x', high, low, 'u', '8'] =
      (readDigits? 16 [high, low]).map fun n => [UInt8.ofNat n] := rfl

theorem byteLiterals?_cons (high low : Char) (rest : List Char) :
    byteLiterals? ('0' :: 'x' :: high :: low :: 'u' :: '8' :: ',' :: ' ' :: rest) =
      (readDigits? 16 [high, low]).bind fun n =>
        (byteLiterals? rest).map (UInt8.ofNat n :: ·) := rfl

/-- Literals with commas between them are read back. -/
theorem byteLiterals?_intercalate (bytes : List UInt8) :
    byteLiterals? (", ".toList.intercalate (bytes.map byteText)) = some bytes := by
  induction bytes with
  | nil => rfl
  | cons b bytes ih =>
    obtain ⟨high, low, hdigits, -, -, hread⟩ := exists_hexUpper b
    have htext : byteText b = '0' :: 'x' :: high :: low :: ['u', '8'] := by
      rw [byteText, hdigits]
      rfl
    cases bytes with
    | nil =>
      rw [List.map_singleton, List.intercalate_singleton, htext, byteLiterals?_last, hread,
        Option.map_some, UInt8.ofNat_toNat]
    | cons b' bytes =>
      rw [List.map_cons, List.map_cons, List.intercalate_cons_cons, htext]
      show byteLiterals? ('0' :: 'x' :: high :: low :: 'u' :: '8' :: ',' :: ' ' ::
        ", ".toList.intercalate ((b' :: bytes).map byteText)) = _
      rw [byteLiterals?_cons, hread, ih, Option.bind_some, Option.map_some, UInt8.ofNat_toNat]

/-- No literal ends the list. -/
theorem not_mem_intercalate_byteText (bytes : List UInt8) :
    ']' ∉ ", ".toList.intercalate (bytes.map byteText) := by
  induction bytes with
  | nil => simp
  | cons b bytes ih =>
    cases bytes with
    | nil =>
      rw [List.map_singleton, List.intercalate_singleton]
      exact not_mem_byteText b
    | cons b' bytes =>
      rw [List.map_cons, List.map_cons, List.intercalate_cons_cons]
      rw [List.mem_append, List.mem_append, not_or, not_or]
      exact ⟨⟨not_mem_byteText b, by decide⟩, ih⟩

theorem toList_byteList (bytes : List UInt8) :
    (byteList bytes).toList =
      '[' :: (", ".toList.intercalate (bytes.map byteText) ++ [']']) := by
  have htexts : (bytes.map fun b => "0x" ++ hexUpper 2 b.toNat ++ "u8").map String.toList =
      bytes.map byteText := by
    rw [List.map_map]
    refine List.map_congr_left fun b _ => ?_
    rw [Function.comp_apply, String.toList_append, String.toList_append]
    rfl
  rw [byteList, String.toList_append, String.toList_append, String.toList_intercalate, htexts]
  rfl

/-! ## Constants -/

/-- What a constant consists of: the type, which neither ends in an equals sign nor has one in
it, and the list in its brackets. -/
theorem toList_constantText (shape : Shape) (bytes : List UInt8) :
    (constantText shape bytes).toList =
      "\x7b const BYTES: ".toList ++ (shape.typeText bytes.length).toList ++ " = ".toList ++
        shape.operator.toList ++
        '[' :: (", ".toList.intercalate (bytes.map byteText) ++ ']' :: "; BYTES \x7d".toList) := by
  unfold constantText
  simp only [String.toList_append, toList_byteList, List.append_assoc, List.cons_append,
    List.nil_append]

/-- The type says how many bytes there are, in digits. -/
theorem toList_typeText_array (length : Nat) :
    (Shape.array.typeText length).toList = "[u8; ".toList ++ (Nat.toDigits 10 length ++ [']']) := by
  have hdecimal : (decimal (length : Int)).toList = Nat.toDigits 10 length := by
    rw [decimal, if_neg (by omega), Int.natAbs_natCast, String.toList_ofList]
  simp only [Shape.typeText, String.toList_append, List.append_assoc, hdecimal]
  rfl

theorem not_mem_typeText {c : Char} (hplain : c ∉ "&[u8; ]".toList) (hdigit : c.isDigit = false)
    (shape : Shape) (length : Nat) : c ∉ (shape.typeText length).toList := by
  cases shape with
  | slice =>
    have hall : ∀ d ∈ "&[u8]".toList, d ∈ "&[u8; ]".toList := by decide
    exact fun hc => hplain (hall c hc)
  | array =>
    have hall : ∀ d ∈ "[u8; ".toList, d ∈ "&[u8; ]".toList := by decide
    rw [toList_typeText_array, List.mem_append, List.mem_append, not_or, not_or]
    refine ⟨fun hc => hplain (hall c hc), fun hc => ?_, fun hc => ?_⟩
    · rw [Nat.isDigit_of_mem_toDigits (by decide) (by decide) hc] at hdigit
      cases hdigit
    · rw [List.mem_singleton.mp hc] at hplain
      exact hplain (by decide)

/-- The bytes of a constant are read back. -/
theorem constantBytes?_constantText (shape : Shape) (bytes : List UInt8) :
    constantBytes? (constantText shape bytes) = some bytes := by
  have htext : (constantText shape bytes).toList =
      ("\x7b const BYTES: ".toList ++ (shape.typeText bytes.length).toList ++ [' ']) ++
        '=' :: ((' ' :: shape.operator.toList) ++
          '[' :: (", ".toList.intercalate (bytes.map byteText) ++
            ']' :: "; BYTES \x7d".toList)) := by
    rw [toList_constantText, show " = ".toList = [' ', '=', ' '] from rfl]
    simp only [List.append_assoc, List.cons_append, List.nil_append]
  have hequals :
      '=' ∉ "\x7b const BYTES: ".toList ++ (shape.typeText bytes.length).toList ++ [' '] := by
    rw [List.mem_append, List.mem_append, not_or, not_or]
    exact ⟨⟨by decide, not_mem_typeText (by decide) rfl shape bytes.length⟩, by decide⟩
  have hoperator : '[' ∉ '=' :: ' ' :: shape.operator.toList := by
    cases shape <;> decide
  unfold constantBytes?
  rw [htext, dropWhile_ne_append hequals, ← List.cons_append, dropWhile_ne_append hoperator,
    List.drop_one, List.tail_cons, takeWhile_ne_append (not_mem_intercalate_byteText bytes),
    byteLiterals?_intercalate]

/-- So is the length of an array. -/
theorem declaredLength?_constantText (bytes : List UInt8) :
    declaredLength? (constantText .array bytes) = some bytes.length := by
  have htext : (constantText .array bytes).toList =
      ("\x7b const BYTES: ".toList ++ "[u8".toList) ++
        ';' :: (' ' :: (Nat.toDigits 10 bytes.length ++ ']' :: (" = ".toList ++
          '[' :: (", ".toList.intercalate (bytes.map byteText) ++
            ']' :: "; BYTES \x7d".toList)))) := by
    rw [toList_constantText, toList_typeText_array,
      show "[u8; ".toList = "[u8".toList ++ [';', ' '] from rfl,
      show Shape.array.operator.toList = [] from rfl]
    simp only [List.append_assoc, List.cons_append, List.nil_append]
  have hdigits : ']' ∉ Nat.toDigits 10 bytes.length := by
    intro hmem
    cases Nat.isDigit_of_mem_toDigits (by decide) (by decide) hmem
  have hpadded := @readDigits?_toDigits 10 (by decide) (by decide) 0 bytes.length
  unfold declaredLength?
  rw [htext, dropWhile_ne_append (by decide)]
  show readDigits? 10 ((Nat.toDigits 10 bytes.length ++ ']' :: _).takeWhile (· != ']')) = _
  rw [takeWhile_ne_append hdigits]
  simpa [List.leftpad] using hpadded

/-! ## Errors -/

theorem between?_append (front behind body : String) :
    between? front.toList behind.toList (front ++ body ++ behind).toList = some body.toList := by
  rw [between?_eq_some_iff, String.toList_append, String.toList_append]

/-- The message of an error is read back. -/
theorem errorMessage?_errorText (message : String) :
    errorMessage? (errorText message) = some message := by
  unfold errorMessage? errorText
  rw [between?_append, Option.bind_some, String.toList_ofList, literalText?_escape,
    Option.map_some, String.ofList_toList]

/-- An error is no constant. -/
theorem errorText_ne_constantText (message : String) (shape : Shape) (bytes : List UInt8) :
    errorText message ≠ constantText shape bytes := by
  intro h
  have hfirst := congrArg (fun text : String => text.toList.head?) h
  unfold errorText at hfirst
  simp only [toList_constantText, String.toList_append, List.append_assoc] at hfirst
  cases hfirst

/-! ## Expansions -/

/-- The machine code of tokens that spell an invocation is that of its source. -/
theorem assembleTokens_of_spells {tokens : List Token} (hlexed : ∀ t ∈ tokens, t.IsLexed)
    {i : Invocation} (h : Spells tokens i) : assembleTokens tokens = i.assemble := by
  rw [assembleTokens, parse_of_spells hlexed h, ok_bind]

/-- Tokens are replaced by their machine code exactly if there is any. -/
theorem text_expand_eq_iff {shape : Shape} {tokens : List Token} {bytes : List UInt8} :
    (expand shape tokens).text = constantText shape bytes ↔ assembleTokens tokens = .ok bytes := by
  unfold expand
  cases assembleTokens tokens with
  | ok bytes' =>
    constructor
    · intro h
      have hread := congrArg constantBytes? h
      rw [constantBytes?_constantText, constantBytes?_constantText] at hread
      exact congrArg Except.ok (Option.some.inj hread)
    · intro h
      rw [Except.ok.inj h]
  | error issue =>
    constructor
    · exact fun h => absurd h (errorText_ne_constantText _ shape bytes)
    · intro h
      cases h

/-- **What an invocation is replaced by.** Tokens are replaced by a constant exactly if they
spell an invocation whose source is assembled. Its bytes are read back from the constant, and
their number from the type of an array. All else is replaced by an error, whose message is
read back from its literal. It stands at the source string if the source is not assembled;
tokens that spell no invocation are blamed at the first of them that cannot go on like one,
and at none exactly if more tokens could. If arithmetic is checked, this is so unless a sum
overflows in the source; then there is no error, and nothing at all. -/
theorem expansion_contract (shape : Shape) {tokens : List Token}
    (hlexed : ∀ t ∈ tokens, t.IsLexed) :
    (∀ bytes, (expand shape tokens).text = constantText shape bytes ↔
      ∃ i, Spells tokens i ∧ assemble i.source i.base i.externals = .ok bytes) ∧
    (∀ bytes, (expand shape tokens).text = constantText shape bytes →
      constantBytes? (expand shape tokens).text = some bytes ∧
      (shape = .array → declaredLength? (expand shape tokens).text = some bytes.length) ∧
      (expand shape tokens).position = none) ∧
    (∀ i report, Spells tokens i → assemble i.source i.base i.externals = .error report →
      errorMessage? (expand shape tokens).text = some ("assembly error: " ++ report.message) ∧
      (expand shape tokens).position = some i.sourcePosition ∧
      ∃ text, tokens[i.sourcePosition]? = some (.literal text) ∧ IsString text i.source) ∧
    ((∀ i, ¬ Spells tokens i) → ∃ issue, Invocation.parse tokens = .error issue ∧
      errorMessage? (expand shape tokens).text = some issue.cause.message ∧
      (expand shape tokens).position = issue.position ∧
      IsBlame IsInvocation 0 tokens issue.position ∧
      (issue.position = none ↔ Continues IsInvocation tokens)) ∧
    ((∃ i, Spells tokens i ∧ assembleOverflows i.source i.base i.externals = true) →
      expandChecked? shape tokens = none) ∧
    ((∀ i, Spells tokens i → assembleOverflows i.source i.base i.externals = false) →
      expandChecked? shape tokens = some (expand shape tokens)) := by
  refine ⟨fun bytes => ?_, fun bytes h => ?_, fun i report hspells hreport => ?_, fun hnone => ?_,
    fun ⟨i, hspells, hsum⟩ => ?_, fun hsums => ?_⟩
  · rw [text_expand_eq_iff]
    constructor
    · intro h
      obtain ⟨i, hi, hassemble⟩ := bind_eq_ok.mp h
      exact ⟨i, (parse_eq_ok_iff hlexed).mp hi, mapError_eq_ok.mp hassemble⟩
    · rintro ⟨i, hspells, hassemble⟩
      rw [assembleTokens_of_spells hlexed hspells, Invocation.assemble, hassemble]
      rfl
  · refine ⟨?_, ?_, ?_⟩
    · rw [h, constantBytes?_constantText]
    · rintro rfl
      rw [h, declaredLength?_constantText]
    · rw [expand, text_expand_eq_iff.mp h]
  · have htokens : assembleTokens tokens =
        .error ⟨.assembly report, some i.sourcePosition⟩ := by
      rw [assembleTokens_of_spells hlexed hspells, Invocation.assemble, hreport]
      rfl
    rw [expand, htokens]
    exact ⟨errorMessage?_errorText _, rfl, isString_of_spells hspells⟩
  · rcases parse_cases tokens hlexed with ⟨i, -, hspells⟩ | ⟨issue, hissue, hblame⟩
    · exact absurd hspells (hnone i)
    · have htokens : assembleTokens tokens = .error issue := by
        rw [assembleTokens, hissue]
        rfl
      rw [expand, htokens]
      exact ⟨issue, hissue, errorMessage?_errorText _, rfl, hblame, hblame.eq_none_iff⟩
  · rw [expandChecked?, tokensOverflow, parse_of_spells hlexed hspells]
    exact if_pos hsum
  · have hsum : tokensOverflow tokens = false := by
      unfold tokensOverflow
      cases hparse : Invocation.parse tokens with
      | error issue => rfl
      | ok i => exact hsums i ((parse_eq_ok_iff hlexed).mp hparse)
    rw [expandChecked?, hsum, if_neg Bool.false_ne_true]

/-- The address of a symbol, behind a base address and in front of a last comma. -/
theorem expansion_contract_word :
    let tokens : List Token := [.literal "0x8000", .punct ',', .literal "\x22.word handler\x22",
      .punct ',', .ident "handler", .punct '=', .literal "0x81_00u32", .punct ',']
    (∀ t ∈ tokens, t.IsLexed) ∧
      (expand .array tokens).text = constantText .array [0x81, 0x00] := by
  intro tokens
  have hlexed : ∀ t ∈ tokens, t.IsLexed := by
    simp only [tokens, List.forall_mem_cons]
    refine ⟨Token.isLexed_of_digit rfl (by decide), trivial, Or.inl (by decide), trivial, trivial,
      trivial, Token.isLexed_of_digit rfl (by decide), trivial, ?_⟩
    exact fun t ht => absurd ht List.not_mem_nil
  have hbase : IsWord "0x8000" 0x8000 :=
    ⟨16, "0x", "8000".toList, "", by simp [radixMarks], Or.inl rfl, by decide, by decide⟩
  have hvalue : IsWord "0x81_00u32" 0x8100 :=
    ⟨16, "0x", "8100".toList, "u32", by simp [radixMarks], Or.inr rfl, by decide, by decide⟩
  have hsource : IsString "\x22.word handler\x22" ".word handler" :=
    Or.inl ⟨".word handler".toList, by decide,
      by rw [unescape_of_not_mem (by decide), String.ofList_toList]⟩
  have hspells : Spells tokens ⟨0x8000, ".word handler", 2, [("handler", 0x8100)]⟩ :=
    .based hbase (.intro hsource (.cons "handler" hvalue .comma))
  have hassemble : assemble ".word handler" 0x8000 [("handler", 0x8100)] =
      .ok [0x81, 0x00] :=
    eq_ok_of_toOption (by decide +kernel)
  exact ⟨hlexed, ((expansion_contract .array hlexed).1 _).mpr ⟨_, hspells, hassemble⟩⟩

/-- If arithmetic is checked, there is neither a constant nor an error for a byte that would
be 2^63. -/
theorem exists_expandChecked?_eq_none :
    let tokens : List Token :=
      [.literal "1", .punct ',', .literal "\x22x: .byte x+9223372036854775807\x22"]
    (∀ t ∈ tokens, t.IsLexed) ∧ expandChecked? .slice tokens = none := by
  intro tokens
  refine ⟨?_, by decide +kernel⟩
  simp only [tokens, List.forall_mem_cons]
  refine ⟨Token.isLexed_of_digit rfl (by decide), trivial, Or.inl (by decide), ?_⟩
  exact fun t ht => absurd ht List.not_mem_nil

end Stm8.Embed
