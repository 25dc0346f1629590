import Stm8.Embed.Invocation
import Stm8.Proofs.Embed.Literal
import Stm8.Proofs.Success

/-!
# The grammar of an invocation

An invocation is a source string, perhaps behind a base address, and in front of any number
of symbols. `Spells` is this grammar, for all tokens that the host language makes.

> `parse_eq_ok_iff`: an invocation is read from exactly the tokens that spell it.
> `isBlame_of_parse`: what cannot be read is reported at the first token that cannot go on
> like this, or at none if there are too few.
-/

namespace Stm8.Embed

/-! ## Tokens -/

/-- Whether the host language makes the token: a literal without quotes is a number, which
begins with a digit and has no plus sign in it but that of an exponent. -/
def Token.IsLexed : Token → Prop
  | .literal text =>
    quote ∈ text.toList ∨ '\x27' ∈ text.toList ∨
      (text.toList.head?.any Char.isDigit = true ∧
        ∀ front behind, text.toList = front ++ '+' :: behind →
          front.getLast? = some 'e' ∨ front.getLast? = some 'E')
  | _ => True

/-- A number without a plus sign is such a token. -/
theorem Token.isLexed_of_digit {text : String}
    (hdigit : text.toList.head?.any Char.isDigit = true) (hplus : '+' ∉ text.toList) :
    (Token.literal text).IsLexed := by
  refine Or.inr (Or.inr ⟨hdigit, fun front behind htext => absurd ?_ hplus⟩)
  rw [htext]
  exact List.mem_append_right front List.mem_cons_self

/-- An integer literal begins with a digit. -/
theorem startsWithDigit_of_isWord {text : String} {value : UInt32}
    (hlexed : (Token.literal text).IsLexed) (h : IsWord text value) :
    (Token.literal text).startsWithDigit = true := by
  obtain ⟨hquote, hsingle⟩ := not_mem_of_isWord h
  rcases hlexed with hmem | hmem | ⟨hdigit, -⟩
  · exact absurd hmem hquote
  · exact absurd hmem hsingle
  · exact hdigit

/-- A string literal does not. -/
theorem startsWithDigit_of_isString {text source : String} (h : IsString text source) :
    (Token.literal text).startsWithDigit = false := by
  show text.toList.head?.any Char.isDigit = false
  rcases h with ⟨body, htext, -⟩ | ⟨hashes, body, htext, -⟩
  · rw [htext]
    rfl
  · rw [htext]
    rfl

/-- A sign that only an exponent has in front has one in front without underscores as
well. -/
theorem exponent_mem_of_sign {text mark behind : List Char}
    (hsign : ∀ front behind, text = front ++ '+' :: behind →
      front.getLast? = some 'e' ∨ front.getLast? = some 'E')
    (htext : text.filter (· != '_') = mark ++ '+' :: behind) : 'e' ∈ mark ∨ 'E' ∈ mark := by
  rw [List.filter_eq_append_iff] at htext
  obtain ⟨first, rest, hsplit, hfirst, hrest⟩ := htext
  rw [List.filter_eq_cons_iff] at hrest
  obtain ⟨skipped, behind', rfl, hskipped, -, -⟩ := hrest
  have hfront : (first ++ skipped).filter (· != '_') = mark := by
    rw [List.filter_append, hfirst, List.filter_eq_nil_iff.mpr hskipped, List.append_nil]
  have hmem : ∀ c, c ≠ '_' → (first ++ skipped).getLast? = some c → c ∈ mark := by
    intro c hne hlast
    rw [← hfront]
    exact List.mem_filter.mpr ⟨List.mem_of_getLast? hlast, bne_iff_ne.mpr hne⟩
  rcases hsign (first ++ skipped) behind' (by rw [hsplit, List.append_assoc]) with hlast | hlast
  · exact Or.inl (hmem _ (by decide) hlast)
  · exact Or.inr (hmem _ (by decide) hlast)

/-- Of the tokens that the host language makes, only integer literals are read as
integers. -/
theorem isWord_of_isLexed {text : String} {value : UInt32}
    (hlexed : (Token.literal text).IsLexed) (h : readWord? text.toList = some value) :
    IsWord text value := by
  refine isWord_of_readWord? (fun radix mark digits ending n hmark hending hdigits htext => ?_) h
  have hmarks : ∀ x ∈ radixMarks, quote ∉ x.2.toList ∧ '\x27' ∉ x.2.toList ∧
      'e' ∉ x.2.toList ∧ 'E' ∉ x.2.toList := by
    decide
  obtain ⟨hquote, hsingle, hsmall, hcapital⟩ := hmarks _ hmark
  obtain ⟨-, -, hdouble, hapostrophe⟩ := digit?_eq_none hmark
  -- all characters but underscores are known
  have hkept : ∀ c, c ∈ text.toList → c ≠ '_' →
      c ∈ mark.toList ∨ c = '+' ∨ c ∈ digits ∨ c ∈ ending.toList := by
    intro c hc hne
    have hmem : c ∈ text.toList.filter (· != '_') := List.mem_filter.mpr ⟨hc, bne_iff_ne.mpr hne⟩
    rw [htext] at hmem
    simpa [or_assoc] using hmem
  have hends : quote ∉ ending.toList ∧ '\x27' ∉ ending.toList := by
    rcases hending with rfl | rfl <;> decide
  rcases hlexed with hmem | hmem | ⟨-, hsign⟩
  · rcases hkept _ hmem (by decide) with hc | hc | hc | hc
    · exact hquote hc
    · cases hc
    · exact not_mem_of_readDigits? hdigits hdouble hc
    · exact hends.1 hc
  · rcases hkept _ hmem (by decide) with hc | hc | hc | hc
    · exact hsingle hc
    · cases hc
    · exact not_mem_of_readDigits? hdigits hapostrophe hc
    · exact hends.2 hc
  · -- the sign stands behind the mark, which has no exponent in it
    rw [List.append_assoc, List.cons_append] at htext
    rcases exponent_mem_of_sign hsign htext with hc | hc
    · exact hsmall hc
    · exact hcapital hc

/-! ## The grammar -/

/-- The tokens of symbols with their values, each behind a comma. Another comma may stand
at the very end. -/
inductive SpellsExternals : List Token → List (String × UInt32) → Prop where
  | nil : SpellsExternals [] []
  | comma : SpellsExternals [.punct ','] []
  | cons {text : String} {value : UInt32} {rest : List Token}
      {others : List (String × UInt32)} (name : String) :
      IsWord text value → SpellsExternals rest others →
      SpellsExternals (.punct ',' :: .ident name :: .punct '=' :: .literal text :: rest)
        ((name, value) :: others)

/-- The tokens of an invocation behind its base address: a string and symbols. -/
inductive SpellsSource (base : UInt32) (position : Nat) : List Token → Invocation → Prop where
  | intro {text source : String} {rest : List Token} {externals : List (String × UInt32)} :
      IsString text source → SpellsExternals rest externals →
      SpellsSource base position (.literal text :: rest) ⟨base, source, position, externals⟩

/-- The tokens of an invocation. -/
inductive Spells : List Token → Invocation → Prop where
  | plain {tokens : List Token} {i : Invocation} :
      SpellsSource 0 0 tokens i → Spells tokens i
  | based {text : String} {base : UInt32} {rest : List Token} {i : Invocation} :
      IsWord text base → SpellsSource base 2 rest i →
      Spells (.literal text :: .punct ',' :: rest) i

/-! ## What is spelled is read -/

theorem expectPunct_self (c : Char) (position : Nat) :
    expectPunct c position (.punct c) = .ok () := by
  rw [expectPunct, beq_self_eq_true, if_pos rfl]

theorem expectWord_of_isWord {text : String} {value : UInt32} (h : IsWord text value)
    (position : Nat) : expectWord position (.literal text) = .ok value := by
  rw [expectWord, readWord?_of_isWord h]

theorem expectString_of_isString {text source : String} (h : IsString text source)
    (position : Nat) : expectString position (.literal text) = .ok source := by
  obtain ⟨body, hbody, rfl⟩ := readString_of_isString h
  rw [expectString, hbody]

theorem readExternals_of_spells {ts : List Token} {externals : List (String × UInt32)}
    (h : SpellsExternals ts externals) :
    ∀ position, readExternals position ts = .ok externals := by
  induction h with
  | nil => exact fun _ => rfl
  | comma => exact fun _ => rfl
  | cons name hword _ ih =>
    intro position
    rw [readExternals, expectPunct_self, ok_bind, expectName, ok_bind, expectPunct_self, ok_bind,
      expectWord_of_isWord hword, ok_bind, ih]
    rfl

theorem readSource_of_spells {base : UInt32} {position : Nat} {ts : List Token} {i : Invocation}
    (h : SpellsSource base position ts i) : readSource base position ts = .ok i := by
  obtain ⟨hstring, hexternals⟩ := h
  rw [readSource, expectString_of_isString hstring, ok_bind, readExternals_of_spells hexternals]
  rfl

/-- An invocation that is spelled is read. -/
theorem parse_of_spells {tokens : List Token} {i : Invocation}
    (hlexed : ∀ t ∈ tokens, t.IsLexed) (h : Spells tokens i) :
    Invocation.parse tokens = .ok i := by
  cases h with
  | plain hsource =>
    have hread := readSource_of_spells hsource
    obtain ⟨hstring, -⟩ := hsource
    rw [Invocation.parse, startsWithDigit_of_isString hstring, if_neg Bool.false_ne_true]
    exact hread
  | based hword hsource =>
    have hdigit := startsWithDigit_of_isWord (hlexed _ List.mem_cons_self) hword
    rw [Invocation.parse, hdigit, if_pos rfl, expectWord_of_isWord hword, ok_bind]
    dsimp only
    rw [expectPunct_self, ok_bind]
    exact readSource_of_spells hsource

/-! ## What each token can be -/

theorem expectPunct_cases (c : Char) (position : Nat) (t : Token) :
    (t = .punct c ∧ expectPunct c position t = .ok ()) ∨
      (t ≠ .punct c ∧ expectPunct c position t = .error ⟨.expectedPunct c, some position⟩) := by
  by_cases h : t = .punct c
  · rw [h]
    exact Or.inl ⟨rfl, expectPunct_self c position⟩
  · refine Or.inr ⟨h, ?_⟩
    cases t with
    | punct d =>
      rw [expectPunct, if_neg]
      rw [beq_iff_eq]
      exact fun hd => h (congrArg Token.punct hd)
    | _ => rfl

theorem expectName_cases (position : Nat) (t : Token) :
    (∃ name, t = .ident name ∧ expectName position t = .ok name) ∨
      ((∀ name, t ≠ .ident name) ∧
        expectName position t = .error ⟨.expectedName, some position⟩) := by
  cases t with
  | ident name => exact Or.inl ⟨name, rfl, rfl⟩
  | _ => exact Or.inr ⟨fun _ h => (by cases h), rfl⟩

theorem expectWord_cases (position : Nat) {t : Token} (hlexed : t.IsLexed) :
    (∃ text value, t = .literal text ∧ IsWord text value ∧ expectWord position t = .ok value) ∨
      ((∀ text value, t = .literal text → ¬ IsWord text value) ∧
        ∃ cause, expectWord position t = .error ⟨cause, some position⟩) := by
  cases t with
  | literal text =>
    cases hread : readWord? text.toList with
    | some value =>
      exact Or.inl ⟨text, value, rfl, isWord_of_isLexed hlexed hread, by rw [expectWord, hread]⟩
    | none =>
      refine Or.inr ⟨fun text' value htext hword => ?_, .invalidInteger, by rw [expectWord, hread]⟩
      rw [Token.literal.inj htext, readWord?_of_isWord hword] at hread
      cases hread
  | _ => exact Or.inr ⟨fun _ _ h => (by cases h), _, rfl⟩

theorem expectString_cases (position : Nat) (t : Token) :
    (∃ text source, t = .literal text ∧ IsString text source ∧
        expectString position t = .ok source) ∨
      ((∀ text source, t = .literal text → ¬ IsString text source) ∧
        ∃ cause, expectString position t = .error ⟨cause, some position⟩) := by
  cases t with
  | literal text =>
    cases hread : readString text.toList with
    | ok body =>
      exact Or.inl ⟨text, _, rfl, isString_of_readString hread, by rw [expectString, hread]⟩
    | error issue =>
      have hno : ∀ text' source, Token.literal text = .literal text' → ¬ IsString text' source := by
        intro text' source htext hstring
        obtain ⟨body, hbody, -⟩ := readString_of_isString hstring
        rw [← Token.literal.inj htext, hread] at hbody
        cases hbody
      cases issue with
      | noString => exact Or.inr ⟨hno, .expectedSource, by rw [expectString, hread]⟩
      | malformedRaw => exact Or.inr ⟨hno, .malformedRaw, by rw [expectString, hread]⟩
  | _ => exact Or.inr ⟨fun _ _ h => (by cases h), _, rfl⟩

/-! ## Where reading stops -/

/-- Whether the tokens can go on as the grammar `G` says. -/
def Continues (G : List Token → Prop) (ts : List Token) : Prop :=
  ∃ rest, G (ts ++ rest)

/-- Whether tokens that `G` does not accept, the first of which has the number `start`, are
rightly blamed at a position: at the first token that cannot go on as `G` says, or at none
if more tokens could. -/
def IsBlame (G : List Token → Prop) (start : Nat) (ts : List Token) : Option Nat → Prop
  | none => Continues G ts
  | some n => ∃ front t behind, ts = front ++ t :: behind ∧ n = start + front.length ∧
      Continues G front ∧ ¬ Continues G (front ++ [t])

/-- What can go on in full can go on in part. -/
theorem Continues.of_append {G : List Token → Prop} {ts behind : List Token}
    (h : Continues G (ts ++ behind)) : Continues G ts := by
  obtain ⟨rest, hrest⟩ := h
  exact ⟨behind ++ rest, by rw [← List.append_assoc]; exact hrest⟩

/-- Nothing is blamed exactly if more tokens could be right. -/
theorem IsBlame.eq_none_iff {G : List Token → Prop} {start : Nat} {ts : List Token}
    {position : Option Nat} (h : IsBlame G start ts position) :
    position = none ↔ Continues G ts := by
  cases position with
  | none => exact ⟨fun _ => h, fun _ => rfl⟩
  | some n =>
    obtain ⟨front, t, behind, rfl, -, -, hstop⟩ := h
    refine ⟨fun hnone => (by cases hnone), fun hgo => absurd ?_ hstop⟩
    rw [List.append_cons] at hgo
    exact hgo.of_append

/-- Tokens in front move the blame on. -/
theorem IsBlame.append {G H : List Token → Prop} {pre : List Token}
    (hGH : ∀ ts, Continues H ts ↔ Continues G (pre ++ ts)) {start : Nat} {ts : List Token}
    {position : Option Nat} (h : IsBlame H (start + pre.length) ts position) :
    IsBlame G start (pre ++ ts) position := by
  cases position with
  | none => exact (hGH ts).mp h
  | some n =>
    obtain ⟨front, t, behind, rfl, hn, hfront, hstop⟩ := h
    refine ⟨pre ++ front, t, behind, (List.append_assoc ..).symm, ?_, (hGH front).mp hfront, ?_⟩
    · rw [List.length_append, hn, Nat.add_assoc]
    · rw [List.append_assoc, ← hGH]
      exact hstop

/-- The first token behind others that can go on is to blame if it cannot. -/
theorem isBlame_some {G : List Token → Prop} {front : List Token} {t : Token}
    (hfront : Continues G front) (hstop : ¬ Continues G (front ++ [t])) (start : Nat)
    (behind : List Token) : IsBlame G start (front ++ t :: behind) (some (start + front.length)) :=
  ⟨front, t, behind, rfl, rfl, hfront, hstop⟩

/-! ## Symbols -/

/-- The grammar of the symbols. -/
def AreExternals (ts : List Token) : Prop :=
  ∃ externals, SpellsExternals ts externals

theorem isWord_zero : IsWord "0" 0 :=
  ⟨10, "", ['0'], "", by simp [radixMarks], Or.inl rfl, by decide, by decide⟩

theorem continues_nil : Continues AreExternals [] :=
  ⟨[], [], .nil⟩

theorem continues_comma : Continues AreExternals [.punct ','] :=
  ⟨[], [], .comma⟩

theorem continues_name (name : String) : Continues AreExternals [.punct ',', .ident name] :=
  ⟨[.punct '=', .literal "0"], _, .cons name isWord_zero .nil⟩

theorem continues_equals (name : String) :
    Continues AreExternals [.punct ',', .ident name, .punct '='] :=
  ⟨[.literal "0"], _, .cons name isWord_zero .nil⟩

/-- Behind a symbol with its value, the grammar begins anew. -/
theorem continues_external {text : String} {value : UInt32} (hword : IsWord text value)
    (name : String) (ts : List Token) :
    Continues AreExternals ts ↔
      Continues AreExternals ([.punct ',', .ident name, .punct '=', .literal text] ++ ts) := by
  constructor
  · rintro ⟨rest, others, h⟩
    exact ⟨rest, _, .cons name hword h⟩
  · rintro ⟨rest, externals, h⟩
    cases h with
    | cons name _ h => exact ⟨rest, _, h⟩

/-- The tokens of the symbols are looked at one after another. -/
theorem readExternals_cons (position : Nat) (t : Token) (ts : List Token) :
    readExternals position (t :: ts) =
      (expectPunct ',' position t >>= fun _ =>
        match ts with
        | [] => .ok []
        | u :: ts => expectName (position + 1) u >>= fun name =>
          match ts with
          | [] => .error ⟨.expectedPunct '=', none⟩
          | v :: ts => expectPunct '=' (position + 2) v >>= fun _ =>
            match ts with
            | [] => .error ⟨.expectedInteger, none⟩
            | w :: rest => expectWord (position + 3) w >>= fun value =>
              readExternals (position + 4) rest >>= fun others =>
                .ok ((name, value) :: others)) := by
  rcases ts with _ | ⟨u, _ | ⟨v, _ | ⟨w, rest⟩⟩⟩ <;> rfl

/-- The symbols are read, or what is wrong is reported where it is. -/
theorem readExternals_cases (position : Nat) (ts : List Token) (hlexed : ∀ t ∈ ts, t.IsLexed) :
    (∃ externals, readExternals position ts = .ok externals ∧ SpellsExternals ts externals) ∨
      ∃ issue, readExternals position ts = .error issue ∧
        IsBlame AreExternals position ts issue.position := by
  cases ts with
  | nil => exact Or.inl ⟨[], rfl, .nil⟩
  | cons t ts =>
    rw [readExternals_cons]
    rcases expectPunct_cases ',' position t with ⟨rfl, hcomma⟩ | ⟨hne, hcomma⟩
    case inr =>
      rw [hcomma]
      refine Or.inr ⟨_, rfl, isBlame_some continues_nil ?_ position ts⟩
      rintro ⟨rest, externals, h⟩
      cases h <;> exact hne rfl
    rw [hcomma, ok_bind]
    cases ts with
    | nil => exact Or.inl ⟨[], rfl, .comma⟩
    | cons u ts =>
      dsimp only
      rcases expectName_cases (position + 1) u with ⟨name, rfl, hname⟩ | ⟨hne, hname⟩
      case inr =>
        rw [hname]
        refine Or.inr ⟨_, rfl, isBlame_some continues_comma ?_ position ts⟩
        rintro ⟨rest, externals, h⟩
        cases h
        exact hne _ rfl
      rw [hname, ok_bind]
      cases ts with
      | nil => exact Or.inr ⟨_, rfl, continues_name name⟩
      | cons v ts =>
        dsimp only
        rcases expectPunct_cases '=' (position + 2) v with ⟨rfl, hequals⟩ | ⟨hne, hequals⟩
        case inr =>
          rw [hequals]
          refine Or.inr ⟨_, rfl, isBlame_some (continues_name name) ?_ position ts⟩
          rintro ⟨rest, externals, h⟩
          cases h
          exact hne rfl
        rw [hequals, ok_bind]
        cases ts with
        | nil => exact Or.inr ⟨_, rfl, continues_equals name⟩
        | cons w rest =>
          dsimp only
          rcases expectWord_cases (position + 3) (hlexed w (by simp)) with
            ⟨text, value, rfl, hword, hvalue⟩ | ⟨hne, cause, hvalue⟩
          case inr =>
            rw [hvalue]
            refine Or.inr ⟨_, rfl, isBlame_some (continues_equals name) ?_ position rest⟩
            rintro ⟨rest, externals, h⟩
            cases h with
            | cons _ hword _ => exact hne _ _ rfl hword
          rw [hvalue, ok_bind]
          rcases readExternals_cases (position + 4) rest fun t ht => hlexed t (by simp [ht]) with
            ⟨others, hothers, hspells⟩ | ⟨issue, hissue, hblame⟩
          · rw [hothers]
            exact Or.inl ⟨_, rfl, .cons name hword hspells⟩
          · rw [hissue]
            exact Or.inr ⟨issue, rfl, hblame.append (continues_external hword name)⟩
termination_by ts.length

/-! ## Whole invocations -/

/-- The grammar behind the base address. -/
def IsSourced (ts : List Token) : Prop :=
  ∃ base position i, SpellsSource base position ts i

/-- The grammar of an invocation. -/
def IsInvocation (tokens : List Token) : Prop :=
  ∃ i, Spells tokens i

theorem isString_empty : IsString "\x22\x22" "" :=
  Or.inl ⟨[], rfl, by rw [unescape]⟩

theorem isSourced_empty : IsSourced [.literal "\x22\x22"] :=
  ⟨0, 0, _, .intro isString_empty .nil⟩

/-- Behind the string come the symbols. -/
theorem continues_source {text source : String} (hstring : IsString text source)
    (ts : List Token) :
    Continues AreExternals ts ↔ Continues IsSourced ([.literal text] ++ ts) := by
  constructor
  · rintro ⟨rest, externals, h⟩
    exact ⟨rest, 0, 0, _, .intro hstring h⟩
  · rintro ⟨rest, base, position, i, h⟩
    cases h with
    | intro _ h => exact ⟨rest, _, h⟩

/-- The source is read, or what is wrong is reported where it is. -/
theorem readSource_cases (base : UInt32) (position : Nat) (ts : List Token)
    (hlexed : ∀ t ∈ ts, t.IsLexed) :
    (∃ i, readSource base position ts = .ok i ∧ SpellsSource base position ts i) ∨
      ∃ issue, readSource base position ts = .error issue ∧
        IsBlame IsSourced position ts issue.position := by
  have hempty : Continues IsSourced [] := ⟨_, isSourced_empty⟩
  cases ts with
  | nil => exact Or.inr ⟨_, rfl, hempty⟩
  | cons t rest =>
    rw [readSource]
    rcases expectString_cases position t with
      ⟨text, source, rfl, hstring, hread⟩ | ⟨hne, cause, hread⟩
    · rw [hread, ok_bind]
      rcases readExternals_cases (position + 1) rest fun t ht => hlexed t (by simp [ht]) with
        ⟨externals, hexternals, hspells⟩ | ⟨issue, hissue, hblame⟩
      · rw [hexternals]
        exact Or.inl ⟨_, rfl, .intro hstring hspells⟩
      · rw [hissue]
        exact Or.inr ⟨issue, rfl, hblame.append (continues_source hstring)⟩
    · rw [hread]
      refine Or.inr ⟨_, rfl, isBlame_some hempty ?_ position rest⟩
      rintro ⟨rest, base, position, i, h⟩
      cases h with
      | intro hstring _ => exact hne _ _ rfl hstring

/-- The grammar of the source does not depend on what stands in front of it. -/
theorem SpellsSource.moved {base : UInt32} {position : Nat} {ts : List Token} {i : Invocation}
    (h : SpellsSource base position ts i) (base' : UInt32) (position' : Nat) :
    SpellsSource base' position' ts { i with base := base', sourcePosition := position' } := by
  cases h with
  | intro hstring hexternals => exact .intro hstring hexternals

/-- Behind the base address comes the source. -/
theorem continues_based {text : String} {value : UInt32} (hword : IsWord text value)
    (ts : List Token) :
    Continues IsSourced ts ↔ Continues IsInvocation ([.literal text, .punct ','] ++ ts) := by
  constructor
  · rintro ⟨rest, base, position, i, h⟩
    exact ⟨rest, _, .based hword (h.moved value 2)⟩
  · rintro ⟨rest, i, h⟩
    cases h with
    | plain h =>
      cases h with
      | intro hstring _ => exact absurd hword (hstring.not_isWord value)
    | based _ h => exact ⟨rest, _, _, i, h⟩

/-- Without a base address the source comes first. -/
theorem continues_plain {ts : List Token}
    (h : ∀ text value rest, ts = .literal text :: rest → ¬ IsWord text value) :
    Continues IsSourced ts ↔ Continues IsInvocation ts := by
  constructor
  · rintro ⟨rest, base, position, i, hsource⟩
    exact ⟨rest, _, .plain (hsource.moved 0 0)⟩
  · rintro ⟨rest, i, hspells⟩
    cases ts with
    | nil => exact ⟨_, isSourced_empty⟩
    | cons t ts =>
      generalize htokens : t :: ts ++ rest = tokens at hspells
      cases hspells with
      | plain hsource => exact ⟨rest, 0, 0, i, htokens ▸ hsource⟩
      | based hword _ =>
        obtain ⟨rfl, -⟩ := List.cons.inj htokens
        exact absurd hword (h _ _ ts rfl)

/-- What blames a token by one grammar blames it by another that goes on alike. -/
theorem IsBlame.congr {G H : List Token → Prop} {ts : List Token}
    (hGH : ∀ front behind, ts = front ++ behind → (Continues H front ↔ Continues G front))
    {start : Nat} {position : Option Nat} (h : IsBlame H start ts position) :
    IsBlame G start ts position := by
  cases position with
  | none => exact (hGH ts [] (List.append_nil ts).symm).mp h
  | some n =>
    obtain ⟨front, t, behind, rfl, hn, hfront, hstop⟩ := h
    refine ⟨front, t, behind, rfl, hn, (hGH front (t :: behind) rfl).mp hfront, ?_⟩
    rw [← hGH (front ++ [t]) behind (by rw [List.append_assoc, List.singleton_append])]
    exact hstop

theorem continues_invocation : Continues IsInvocation [] :=
  ⟨_, _, .plain (.intro isString_empty .nil)⟩

/-- Behind a digit, a base address is read, a comma and the source. -/
theorem parse_cases_of_digit {t : Token} {rest : List Token} (hdigit : t.startsWithDigit = true)
    (hlexed : ∀ u ∈ t :: rest, u.IsLexed) :
    (∃ i, Invocation.parse (t :: rest) = .ok i ∧ Spells (t :: rest) i) ∨
      ∃ issue, Invocation.parse (t :: rest) = .error issue ∧
        IsBlame IsInvocation 0 (t :: rest) issue.position := by
  rw [List.forall_mem_cons] at hlexed
  rw [Invocation.parse, if_pos hdigit]
  rcases expectWord_cases 0 hlexed.1 with ⟨text, base, rfl, hword, hread⟩ | ⟨hne, cause, hread⟩
  case inr =>
    rw [hread]
    refine Or.inr ⟨_, rfl, isBlame_some continues_invocation ?_ 0 rest⟩
    rintro ⟨rest, i, h⟩
    cases h with
    | based hword _ => exact hne _ _ rfl hword
    | plain h =>
      cases h with
      | intro hstring _ =>
        rw [startsWithDigit_of_isString hstring] at hdigit
        cases hdigit
  rw [hread, ok_bind]
  have hcomma : Continues IsInvocation [.literal text, .punct ','] :=
    (continues_based hword []).mp ⟨_, isSourced_empty⟩
  have hbase : Continues IsInvocation [.literal text] :=
    @Continues.of_append _ [.literal text] [.punct ','] hcomma
  cases rest with
  | nil => exact Or.inr ⟨_, rfl, hbase⟩
  | cons u rest =>
    dsimp only
    rcases expectPunct_cases ',' 1 u with ⟨rfl, hread⟩ | ⟨hne, hread⟩
    case inr =>
      rw [hread]
      refine Or.inr ⟨_, rfl, isBlame_some hbase ?_ 0 rest⟩
      rintro ⟨rest, i, h⟩
      cases h with
      | based _ _ => exact hne rfl
      | plain h =>
        cases h with
        | intro hstring _ => exact hstring.not_isWord base hword
    rw [hread, ok_bind]
    rcases readSource_cases base 2 rest fun t ht => hlexed.2 t (List.mem_cons_of_mem _ ht) with
      ⟨i, hread, hspells⟩ | ⟨issue, hissue, hblame⟩
    · exact Or.inl ⟨i, hread, .based hword hspells⟩
    · exact Or.inr ⟨issue, hissue, hblame.append (continues_based hword)⟩

/-- An invocation is read, or what is wrong is reported where it is. -/
theorem parse_cases (tokens : List Token) (hlexed : ∀ t ∈ tokens, t.IsLexed) :
    (∃ i, Invocation.parse tokens = .ok i ∧ Spells tokens i) ∨
      ∃ issue, Invocation.parse tokens = .error issue ∧
        IsBlame IsInvocation 0 tokens issue.position := by
  cases tokens with
  | nil => exact Or.inr ⟨_, rfl, continues_invocation⟩
  | cons t rest =>
    by_cases hdigit : t.startsWithDigit = true
    · exact parse_cases_of_digit hdigit hlexed
    · -- no base address can begin with this token, so the two grammars go on alike
      have hplain : ∀ front behind, t :: rest = front ++ behind →
          ∀ text value ts, front = .literal text :: ts → ¬ IsWord text value := by
        rintro front behind hsplit text value ts rfl hword
        obtain ⟨rfl, -⟩ := List.cons.inj hsplit
        exact hdigit (startsWithDigit_of_isWord (hlexed _ List.mem_cons_self) hword)
      rw [Invocation.parse, if_neg hdigit]
      rcases readSource_cases 0 0 (t :: rest) hlexed with
        ⟨i, hread, hspells⟩ | ⟨issue, hissue, hblame⟩
      · exact Or.inl ⟨i, hread, .plain hspells⟩
      · exact Or.inr ⟨issue, hissue, hblame.congr fun front behind hsplit =>
          continues_plain (hplain front behind hsplit)⟩

/-- **An invocation is read from exactly the tokens that spell it.** -/
theorem parse_eq_ok_iff {tokens : List Token} (hlexed : ∀ t ∈ tokens, t.IsLexed)
    {i : Invocation} : Invocation.parse tokens = .ok i ↔ Spells tokens i := by
  constructor
  · intro h
    rcases parse_cases tokens hlexed with ⟨i', hread, hspells⟩ | ⟨issue, hissue, -⟩
    · rw [hread] at h
      rw [← Except.ok.inj h]
      exact hspells
    · rw [hissue] at h
      cases h
  · exact parse_of_spells hlexed

/-- **What cannot be read is reported at the first token that cannot go on.** -/
theorem isBlame_of_parse {tokens : List Token} (hlexed : ∀ t ∈ tokens, t.IsLexed)
    {issue : Issue} (h : Invocation.parse tokens = .error issue) :
    IsBlame IsInvocation 0 tokens issue.position := by
  rcases parse_cases tokens hlexed with ⟨i, hread, -⟩ | ⟨issue', hissue, hblame⟩
  · rw [hread] at h
    cases h
  · rw [hissue] at h
    rw [← Except.error.inj h]
    exact hblame

/-- The source string of an invocation stands at its position. -/
theorem isString_of_spells {tokens : List Token} {i : Invocation} (h : Spells tokens i) :
    ∃ text, tokens[i.sourcePosition]? = some (.literal text) ∧ IsString text i.source := by
  cases h with
  | plain hsource =>
    cases hsource with
    | intro hstring _ => exact ⟨_, rfl, hstring⟩
  | based _ hsource =>
    cases hsource with
    | intro hstring _ => exact ⟨_, rfl, hstring⟩

end Stm8.Embed
