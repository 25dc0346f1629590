import Std.Data.TreeMap
import Stm8.Form.Selection

/-!
# The catalog

An index over forms: `Catalog.forms` gives the forms of a mnemonic in the order
of the table, and `Catalog.withOpcode?` the first form with an opcode. `catalog`
is the index over the whole table, and `Catalog.resolve` selects a form through
an index as `resolve` does by searching the table.
-/

namespace Stm8

/-- Forms indexed by mnemonic and by opcode. -/
structure Catalog where
  /-- The forms of each mnemonic in order. -/
  byMnemonic : Std.TreeMap String (List Form) := {}
  /-- The first form with each opcode. -/
  byOpcode : Std.TreeMap UInt16 Form := {}

namespace Catalog

/-- The index with one more form behind those that it has. -/
def add (c : Catalog) (f : Form) : Catalog where
  byMnemonic := c.byMnemonic.alter f.mnemonic fun fs? => some (fs?.getD [] ++ [f])
  byOpcode := c.byOpcode.insertIfNew f.opcode f

/-- The index over a list of forms. -/
def ofForms (fs : List Form) : Catalog :=
  fs.foldl add {}

/-- The name under which the forms of a mnemonic are kept, which has no capitals. A
mnemonic without any is this name as it stands. -/
def key (mnemonic : String) : String :=
  if mnemonic.toList.any Char.isUpper then Text.lower mnemonic else mnemonic

/-- The forms of a mnemonic, which may be written in either case. -/
def forms (c : Catalog) (mnemonic : String) : List Form :=
  c.byMnemonic.getD (key mnemonic) []

/-- The first form with the opcode. -/
def withOpcode? (c : Catalog) (opcode : UInt16) : Option Form :=
  c.byOpcode[opcode]?

/-- The form that an instruction takes, by a look-up in the index. -/
def resolve (c : Catalog) (mnemonic : String) (ops : List Operand) : Except Problem Form :=
  select mnemonic (c.forms mnemonic) ops

/-- The mnemonics in alphabetical order. -/
def mnemonics (c : Catalog) : List String :=
  c.byMnemonic.keys

end Catalog

/-- The index over all forms. -/
def catalog : Catalog := .ofForms Form.all

end Stm8
