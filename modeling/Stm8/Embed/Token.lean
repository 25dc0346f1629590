/-!
# Tokens

Assembly source can be embedded in a program of another language as the argument
of an invocation, which that language hands over as a list of tokens.
-/

namespace Stm8.Embed

/-- A token of the host language. -/
inductive Token where
  /-- A literal, as it is spelled. -/
  | literal (text : String)
  /-- An identifier. -/
  | ident (name : String)
  /-- One punctuation character. -/
  | punct (c : Char)
  /-- Tokens in brackets. -/
  | group
  deriving DecidableEq, Repr, Inhabited

end Stm8.Embed
