import Stm8.Embed.Invocation

/-!
# Expansions

An invocation is replaced by an expression of the host language: a constant with
the machine code, either a slice or an array of known length, or else an error
with the message as a string literal. An assembler that checks its arithmetic does
not come that far if a sum overflows (`expandChecked?`).
-/

namespace Stm8.Embed

/-- The type of the constant. -/
inductive Shape where
  /-- A slice of bytes. -/
  | slice
  /-- An array of bytes, with its length in the type. -/
  | array
  deriving DecidableEq, Repr, Inhabited

/-- What an invocation is replaced by. -/
structure Expansion where
  /-- Source text of the host language. -/
  text : String
  /-- The place of the token at which an error is reported. -/
  position : Option Nat
  deriving DecidableEq, Repr, Inhabited

/-- The bytes as a list of literals in brackets. -/
def byteList (bytes : List UInt8) : String :=
  "[" ++ ", ".intercalate (bytes.map fun b => "0x" ++ Text.hexUpper 2 b.toNat ++ "u8") ++ "]"

/-- The type of a constant with `length` bytes. -/
def Shape.typeText (length : Nat) : Shape → String
  | slice => "&[u8]"
  | array => "[u8; " ++ Text.decimal length ++ "]"

/-- The operator in front of the bytes. -/
def Shape.operator : Shape → String
  | slice => "&"
  | array => ""

/-- The constant with the given bytes. -/
def constantText (shape : Shape) (bytes : List UInt8) : String :=
  "\x7b const BYTES: " ++ shape.typeText bytes.length ++ " = " ++ shape.operator ++
    byteList bytes ++ "; BYTES \x7d"

/-- The error with the given message. -/
def errorText (message : String) : String :=
  "compile_error!(\x22" ++ String.ofList (escape message.toList) ++ "\x22)"

/-- The machine code that the tokens ask for. -/
def assembleTokens (tokens : List Token) : Except Issue (List UInt8) := do
  (← Invocation.parse tokens).assemble

/-- What the invocation with these tokens is replaced by. -/
def expand (shape : Shape) (tokens : List Token) : Expansion :=
  match assembleTokens tokens with
  | .ok bytes => ⟨constantText shape bytes, none⟩
  | .error issue => ⟨errorText issue.cause.message, issue.position⟩

/-- Whether a sum overflows that is made for the tokens. -/
def tokensOverflow (tokens : List Token) : Bool :=
  match Invocation.parse tokens with
  | .ok i => assembleOverflows i.source i.base i.externals
  | .error _ => false

/-- What the invocation is replaced by if arithmetic is checked. Where a sum overflows, the
assembler stops, and there is nothing. -/
def expandChecked? (shape : Shape) (tokens : List Token) : Option Expansion :=
  if tokensOverflow tokens then none else some (expand shape tokens)

end Stm8.Embed
