import Stm8.Assembler

/-!
# Whole programs

`assemble` turns a source text into machine code in one go. There must be
nothing left to do: a statement that is rejected, a value that does not fit and a
symbol without a value are all errors.
-/

namespace Stm8

/-- The problems of a finished program that keep it from being complete: values
that do not fit, then symbols without a value. -/
def Image.problems (i : Image) : List Problem :=
  i.diagnostics ++ i.relocations.map fun r => .undefinedSymbol r.symbol r.span

/-- The machine code of a source text whose first byte stands at `base`, where
the given symbols are defined outside the program. -/
def assemble (source : String) (base : UInt32 := 0)
    (externals : List (String × UInt32) := []) : Except Report (List UInt8) := do
  let a : Assembler := { base }
  let a := externals.foldl (fun a (name, value) => a.defineExternal name value) a
  let i ← (a.emit source).1.finish
  match Report.ofProblems? i.problems with
  | some report => .error report
  | none => .ok i.bytes

/-- Whether a sum that `assemble` makes with these arguments overflows. -/
def assembleOverflows (source : String) (base : UInt32 := 0)
    (externals : List (String × UInt32) := []) : Bool :=
  let a : Assembler := { base }
  let a := externals.foldl (fun a (name, value) => a.defineExternal name value) a
  (a.emit source).1.overflows

end Stm8
