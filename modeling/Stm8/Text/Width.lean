/-!
# Widths in bytes

Source locations count bytes of the UTF-8 form, not characters. `width` is that
count for a text; it is additive (`width_append`), which is all that the span
arithmetic of the library uses.
-/

namespace Stm8.Text

/-- The number of bytes that the text takes in UTF-8. -/
def width (cs : List Char) : Nat :=
  cs.foldr (fun c n => c.utf8Size + n) 0

@[simp] theorem width_nil : width [] = 0 := rfl

@[simp] theorem width_cons (c : Char) (cs : List Char) :
    width (c :: cs) = c.utf8Size + width cs := rfl

@[simp] theorem width_append (xs ys : List Char) :
    width (xs ++ ys) = width xs + width ys := by
  induction xs with
  | nil => rw [List.nil_append, width_nil, Nat.zero_add]
  | cons x xs ih => rw [List.cons_append, width_cons, width_cons, ih, Nat.add_assoc]

end Stm8.Text
