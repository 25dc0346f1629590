import Stm8.Embed.Literal
import Stm8.Embed.Token
import Stm8.Program

/-!
# Invocations

An invocation embeds machine code: an integer for the base address if there is
one, a string with the source, and any number of symbols with their values,

    [BASE ,] STRING (, NAME = INT)* [,]

`Invocation.parse` reads the tokens. What is wrong is reported at the first token
that cannot go on like this, or at no token if there are too few.
-/

namespace Stm8.Embed

/-! ## What can be wrong -/

/-- Why an invocation is rejected. -/
inductive Cause where
  /-- The source string is missing. -/
  | expectedSource
  /-- A punctuation character is missing. -/
  | expectedPunct (c : Char)
  /-- The name of a symbol is missing. -/
  | expectedName
  /-- An integer literal is missing. -/
  | expectedInteger
  /-- The literal is no 32-bit integer. -/
  | invalidInteger
  /-- The ends of a raw string do not match. -/
  | malformedRaw
  /-- The source does not assemble. -/
  | assembly (report : Report)
  deriving Repr, Inhabited

/-- The cause in words. -/
def Cause.message : Cause → String
  | expectedSource => "expected assembly source string"
  | expectedPunct c => "expected `" ++ String.singleton c ++ "`"
  | expectedName => "expected symbol name"
  | expectedInteger => "expected integer literal"
  | invalidInteger => "invalid integer literal"
  | malformedRaw => "malformed raw string"
  | assembly report => "assembly error: " ++ report.message

/-- A cause, and the place of the token at which it is reported. -/
structure Issue where
  /-- What is wrong. -/
  cause : Cause
  /-- The place of a token, or none if the tokens ended too early. -/
  position : Option Nat
  deriving Repr, Inhabited

/-! ## Reading an invocation -/

/-- What an invocation asks for. -/
structure Invocation where
  /-- The address of the first byte. -/
  base : UInt32
  /-- The source text. -/
  source : String
  /-- The place of the token with the source text. -/
  sourcePosition : Nat
  /-- Symbols defined outside the source. -/
  externals : List (String × UInt32)
  deriving DecidableEq, Repr, Inhabited

/-- Checks that the token is a punctuation character. -/
def expectPunct (c : Char) (position : Nat) : Token → Except Issue Unit
  | .punct d => if d == c then .ok () else .error ⟨.expectedPunct c, some position⟩
  | _ => .error ⟨.expectedPunct c, some position⟩

/-- The name that the token is. -/
def expectName (position : Nat) : Token → Except Issue String
  | .ident name => .ok name
  | _ => .error ⟨.expectedName, some position⟩

/-- The value of the integer literal that the token is. -/
def expectWord (position : Nat) : Token → Except Issue UInt32
  | .literal text =>
    match readWord? text.toList with
    | some value => .ok value
    | none => .error ⟨.invalidInteger, some position⟩
  | _ => .error ⟨.expectedInteger, some position⟩

/-- The text of the string literal that the token is. -/
def expectString (position : Nat) : Token → Except Issue String
  | .literal text =>
    match readString text.toList with
    | .ok body => .ok (String.ofList body)
    | .error .noString => .error ⟨.expectedSource, some position⟩
    | .error .malformedRaw => .error ⟨.malformedRaw, some position⟩
  | _ => .error ⟨.expectedSource, some position⟩

/-- The symbols with their values, each behind a comma. A comma may also stand at
the very end. -/
def readExternals (position : Nat) : List Token → Except Issue (List (String × UInt32))
  | [] => .ok []
  | [t] => do
    expectPunct ',' position t
    return []
  | [t, u] => do
    expectPunct ',' position t
    let _ ← expectName (position + 1) u
    .error ⟨.expectedPunct '=', none⟩
  | [t, u, v] => do
    expectPunct ',' position t
    let _ ← expectName (position + 1) u
    expectPunct '=' (position + 2) v
    .error ⟨.expectedInteger, none⟩
  | t :: u :: v :: w :: rest => do
    expectPunct ',' position t
    let name ← expectName (position + 1) u
    expectPunct '=' (position + 2) v
    let value ← expectWord (position + 3) w
    let others ← readExternals (position + 4) rest
    return (name, value) :: others

/-- The rest of an invocation behind the base address. -/
def readSource (base : UInt32) (position : Nat) : List Token → Except Issue Invocation
  | [] => .error ⟨.expectedSource, none⟩
  | t :: rest => do
    let source ← expectString position t
    let externals ← readExternals (position + 1) rest
    return { base, source, sourcePosition := position, externals }

/-- Whether the token is a literal that begins with a decimal digit, as integers
do and strings do not. -/
def Token.startsWithDigit : Token → Bool
  | .literal text => text.toList.head?.any Char.isDigit
  | _ => false

namespace Invocation

/-- The invocation that the tokens spell. -/
def parse : List Token → Except Issue Invocation
  | [] => .error ⟨.expectedSource, none⟩
  | t :: rest =>
    if t.startsWithDigit then do
      let base ← expectWord 0 t
      match rest with
      | [] => .error ⟨.expectedPunct ',', none⟩
      | u :: rest =>
        expectPunct ',' 1 u
        readSource base 2 rest
    else readSource 0 0 (t :: rest)

/-- The machine code that the invocation asks for. -/
def assemble (i : Invocation) : Except Issue (List UInt8) :=
  (Stm8.assemble i.source i.base i.externals).mapError fun report =>
    ⟨.assembly report, some i.sourcePosition⟩

end Invocation

end Stm8.Embed
