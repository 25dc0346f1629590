import Mathlib.Algebra.Ring.Int.Defs
import Mathlib.Algebra.Ring.Nat
import Stm8.Form

/-!
# The order of the fields

`Form.emission` puts a list into the order of the fields: it leaves the list or reverses
it. What does not depend on the order of a list, or is taken item by item, is not
affected.
-/

namespace Stm8

namespace Form

theorem emission_congr {α : Type} {f g : Form} (h : f.reversed = g.reversed)
    (items : List α) : f.emission items = g.emission items := by
  unfold emission
  rw [h]

theorem map_emission {α β : Type} (f : Form) (g : α → β) (items : List α) :
    (f.emission items).map g = f.emission (items.map g) := by
  unfold emission
  split
  · rw [List.map_reverse]
  · rfl

theorem zip_emission {α β : Type} (f : Form) {as : List α} {bs : List β}
    (h : as.length = bs.length) :
    (f.emission as).zip (f.emission bs) = f.emission (as.zip bs) := by
  unfold emission
  split
  · rw [List.zip, List.reverse_zipWith h]
  · rfl

theorem mem_emission {α : Type} (f : Form) {items : List α} {a : α} :
    a ∈ f.emission items ↔ a ∈ items := by
  unfold emission
  split
  · rw [List.mem_reverse]
  · rfl

/-- The fields together are as wide as the slots. -/
theorem fieldWidth_eq_sum (f : Form) : f.fieldWidth = (f.modes.map Mode.width).sum := rfl

theorem sum_emission {α : Type} [AddCommMonoid α] (f : Form) (ns : List α) :
    (f.emission ns).sum = ns.sum := by
  unfold emission
  split
  · rw [List.sum_reverse]
  · rfl

theorem length_flatten_emission {α : Type} (f : Form) (fields : List (List α)) :
    (f.emission fields).flatten.length = (fields.map List.length).sum := by
  rw [List.length_flatten, f.map_emission, f.sum_emission]

end Form

/-- Two lists that look alike do so at every place. -/
theorem eq_of_mem_zip {α β γ : Type} {p : α → γ} {q : β → γ} :
    ∀ {as : List α} {bs : List β}, as.map p = bs.map q → ∀ x ∈ as.zip bs, p x.1 = q x.2
  | [], _, _, x, hx => by cases hx
  | _ :: _, [], h, _, _ => by cases h
  | a :: as, b :: bs, h, x, hx => by
    rw [List.map_cons, List.map_cons, List.cons.injEq] at h
    rcases List.mem_cons.mp hx with rfl | hx
    · exact h.1
    · exact eq_of_mem_zip h.2 x hx

end Stm8
