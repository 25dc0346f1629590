/-!
# Digits

Positional numbers as text. Reading: `digit?` gives the value of one digit in a
radix and `readDigits?` the value of a run of them, most significant first.
Writing: `hex` and `hexUpper` pad to a least number of digits, and `decimal`
writes a signed number.
-/

namespace Stm8.Text

/-- The value of `c` as a digit of `radix`: decimal digits first, then the
ASCII letters of either case. -/
def digit? (radix : Nat) (c : Char) : Option Nat :=
  let value? :=
    if c.isDigit then some (c.toNat - 48)
    else if c.isLower then some (c.toNat - 97 + 10)
    else if c.isUpper then some (c.toNat - 65 + 10)
    else none
  value?.filter (· < radix)

/-- The number whose digits in `radix` are `ds`, most significant first. -/
def positional (radix : Nat) (ds : List Nat) : Nat :=
  ds.foldl (fun acc d => radix * acc + d) 0

/-- The value of a run of digits; `none` if a character is no digit of `radix`
or there is no digit at all. -/
def readDigits? (radix : Nat) (cs : List Char) : Option Nat :=
  if cs.isEmpty then none else (cs.mapM (digit? radix)).map (positional radix)

/-- Lower-case hexadecimal digits of `n`, at least `least` of them. -/
def hex (least n : Nat) : String :=
  String.ofList ((Nat.toDigits 16 n).leftpad least '0')

/-- Upper-case hexadecimal digits of `n`, at least `least` of them. -/
def hexUpper (least n : Nat) : String :=
  String.ofList (((Nat.toDigits 16 n).map Char.toUpper).leftpad least '0')

/-- Decimal digits of `v`, after a minus sign if `v` is negative. -/
def decimal (v : Int) : String :=
  if v < 0 then "-" ++ String.ofList (Nat.toDigits 10 v.natAbs)
  else String.ofList (Nat.toDigits 10 v.natAbs)

end Stm8.Text
