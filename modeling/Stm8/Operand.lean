import Stm8.Register
import Stm8.Span
import Stm8.Value

/-!
# Operands

An `Operand` is what the text of an instruction says, before a form is chosen
for it: a syntactic category (`Kind`), the value if the category has one, and
the place in the source. `Kind.spell` is the spelling of a category around the
text of its value; it is shared by the operands written here and by the decoded
fields of an instruction.
-/

namespace Stm8

/-! ## Categories -/

/-- The syntactic category of an operand. -/
inductive Operand.Kind where
  /-- `#v` -/
  | immediate
  /-- `v` -/
  | directMemory
  /-- `v.s` -/
  | shortDirectMemory
  /-- `(X)` -/
  | indexedX
  /-- `(Y)` -/
  | indexedY
  /-- `(v,X)` -/
  | offsetX
  /-- `(v,Y)` -/
  | offsetY
  /-- `(v,SP)` -/
  | offsetSp
  /-- `[v]` or `[v.w]` -/
  | pointerNear
  /-- `([v],X)` -/
  | pointerNearX
  /-- `([v],Y)` -/
  | pointerNearY
  /-- `[v.e]` -/
  | pointerFar
  /-- `([v.e],X)` -/
  | pointerFarX
  /-- `([v.e],Y)` -/
  | pointerFarY
  /-- A register. -/
  | register (r : Register)
  /-- Text that names no addressing form. No slot takes it. -/
  | illegal
  deriving DecidableEq, Repr, Inhabited

namespace Operand.Kind

/-- Whether operands of the category carry a value. -/
def takesValue : Kind → Bool
  | indexedX | indexedY | register _ | illegal => false
  | _ => true

/-- The spelling of the category around the text of its value, which a category
without one leaves out. -/
def spell (k : Kind) (body : String) : String :=
  match k with
  | immediate => "#" ++ body
  | directMemory => body
  | shortDirectMemory => body ++ ".s"
  | indexedX => "(X)"
  | indexedY => "(Y)"
  | offsetX => "(" ++ body ++ ",X)"
  | offsetY => "(" ++ body ++ ",Y)"
  | offsetSp => "(" ++ body ++ ",SP)"
  | pointerNear => "[" ++ body ++ "]"
  | pointerNearX => "([" ++ body ++ "],X)"
  | pointerNearY => "([" ++ body ++ "],Y)"
  | pointerFar => "[" ++ body ++ ".e]"
  | pointerFarX => "([" ++ body ++ ".e],X)"
  | pointerFarY => "([" ++ body ++ ".e],Y)"
  | register r => r.name
  | illegal => "?"

/-- Whether the spelling shows that a symbol lies in page zero. Elsewhere the
category says it already or cannot say it. -/
def showsShort : Kind → Bool
  | directMemory | offsetX | offsetY | pointerNear | pointerNearX | pointerNearY => true
  | _ => false

end Operand.Kind

/-! ## Operands -/

/-- One operand of an instruction. -/
structure Operand where
  /-- The syntactic category. -/
  kind : Operand.Kind
  /-- The value, if the category takes one and it is known what it is. -/
  value : Option Value := none
  /-- Where the operand stands. -/
  span : Span := .nowhere
  deriving DecidableEq, Repr, Inhabited

namespace Operand

/-- An operand with a value. -/
def withValue (kind : Kind) (value : Value) : Operand :=
  { kind, value := some value }

/-- A register. -/
def register (r : Register) : Operand :=
  { kind := .register r }

/-- `#v` -/
def immediate (v : Int) : Operand :=
  withValue .immediate (.const v)

/-- The memory at a constant address. -/
def memory (address : Int) : Operand :=
  withValue .directMemory (.const address)

/-- The memory at a symbol. -/
def symbol (name : String) : Operand :=
  withValue .directMemory (.ofName name)

/-- `(X)` and `(Y)`; no other register can index. -/
def indexed : Register → Operand
  | .x => { kind := .indexedX }
  | .y => { kind := .indexedY }
  | _ => { kind := .illegal }

/-- An operand that no slot takes. -/
def illegal : Operand :=
  { kind := .illegal }

/-- The operand as source text. A question mark stands for one that has no
spelling. -/
def text (op : Operand) : String :=
  match op.value with
  | some v =>
    op.kind.spell (v.text ++ if op.kind.showsShort && v.isShortSymbol then ".s" else "")
  | none => if op.kind.takesValue then "?" else op.kind.spell ""

end Operand

end Stm8
