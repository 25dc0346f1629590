import Stm8.Text.Blank
import Stm8.Text.Digits

/-!
# Literals of the host language

`readString` recovers the text of a string literal from its spelling, with
escapes in a plain one and without in a raw one, and `readWord?` the value of an
unsigned 32-bit integer literal. `escape` spells a text so that it can stand
between the quotes of a plain literal.
-/

namespace Stm8.Embed

/-! ## Strings -/

/-- Why a literal is no source text. -/
inductive StringIssue where
  /-- It is a literal of another kind. -/
  | noString
  /-- It is a raw string whose ends do not match. -/
  | malformedRaw
  deriving DecidableEq, Repr, Inhabited

/-- The double quote. -/
def quote : Char := '\x22'

/-- The character that a backslash and `c` stand for. -/
def simpleEscape? (c : Char) : Option Char :=
  match c with
  | 'n' => some '\n'
  | 't' => some '\t'
  | 'r' => some '\r'
  | '0' => some '\x00'
  | '\\' => some '\\'
  | '\x22' => some '\x22'
  | '\x27' => some '\x27'
  | _ => none

/-- The text that the characters between the quotes stand for. A backslash in
front of a line break takes the white space behind it away, and one in front of
an unknown character stands for itself. -/
def unescape : List Char → List Char
  | [] => []
  | '\\' :: [] => ['\\']
  | '\\' :: '\n' :: cs => unescape (cs.dropWhile Text.isBlank)
  | '\\' :: c :: cs =>
    match simpleEscape? c with
    | some e => e :: unescape cs
    | none => '\\' :: c :: unescape cs
  | c :: cs => c :: unescape cs
termination_by cs => cs.length
decreasing_by
  all_goals simp only [List.length_cons]
  · have := (List.dropWhile_sublist (l := cs) Text.isBlank).length_le
    omega
  all_goals omega

/-- What stands between `opening` and `closing`, which do not overlap. -/
def between? (opening closing cs : List Char) : Option (List Char) :=
  if opening.isPrefixOf cs && closing.isSuffixOf (cs.drop opening.length) then
    some ((cs.drop opening.length).take (cs.length - opening.length - closing.length))
  else none

/-- The text of a string literal. A raw literal begins with `r` and has the same
number of `#` outside of both quotes. -/
def readString (spelling : List Char) : Except StringIssue (List Char) :=
  match spelling with
  | 'r' :: raw =>
    let hashes := raw.takeWhile (· == '#')
    match between? (hashes ++ [quote]) (quote :: hashes) raw with
    | some body => .ok body
    | none => .error .malformedRaw
  | _ =>
    match between? [quote] [quote] spelling with
    | some body => .ok (unescape body)
    | none => .error .noString

/-! ## Integers -/

/-- The text without an ending, if it has that ending. -/
def withoutEnding (ending cs : List Char) : List Char :=
  if ending.isSuffixOf cs then cs.take (cs.length - ending.length) else cs

/-- The radix that the front of an integer literal announces, and the digits
after the mark. -/
def wordRadix : List Char → Nat × List Char
  | '0' :: 'x' :: ds => (16, ds)
  | '0' :: 'X' :: ds => (16, ds)
  | '0' :: 'b' :: ds => (2, ds)
  | '0' :: 'B' :: ds => (2, ds)
  | '0' :: 'o' :: ds => (8, ds)
  | '0' :: 'O' :: ds => (8, ds)
  | ds => (10, ds)

/-- The digits without a plus sign in front, where digits follow it. -/
def withoutPlus : List Char → List Char
  | '+' :: c :: cs => c :: cs
  | cs => cs

/-- The value of an unsigned 32-bit integer literal. Underscores count for
nothing, and the type may stand behind the digits. -/
def readWord? (spelling : List Char) : Option UInt32 :=
  let (radix, digits) :=
    wordRadix (withoutEnding "u32".toList (spelling.filter (· != '_')))
  ((Text.readDigits? radix (withoutPlus digits)).filter (· < 0x100000000)).map UInt32.ofNat

/-! ## Escaping -/

/-- The character as it is spelled between quotes: ASCII as itself, unless it is
a quote, a backslash or invisible. -/
def escapeChar (c : Char) : List Char :=
  match c with
  | '\t' => ['\\', 't']
  | '\r' => ['\\', 'r']
  | '\n' => ['\\', 'n']
  | '\x27' => ['\\', '\x27']
  | '\x22' => ['\\', '\x22']
  | '\\' => ['\\', '\\']
  | c =>
    if 0x20 ≤ c.toNat && c.toNat ≤ 0x7E then [c]
    else "\\u\x7b".toList ++ (Text.hex 1 c.toNat).toList ++ "\x7d".toList

/-- The text as it is spelled between quotes. -/
def escape (cs : List Char) : List Char :=
  cs.flatMap escapeChar

end Stm8.Embed
