import Mathlib.Algebra.Ring.Nat
import Mathlib.Data.List.Basic
import Stm8.Image.Listing

/-!
# The rows of a listing

The rows of a listing are found from one offset to the next, but labels and source text are
looked up by addresses, which wrap. As long as there are fewer than 2³² bytes, that makes no
difference (`addressAt_inj`). The rows are compared with the bytes that they are made of
(`IsListed`), and all that is said of them is then said by induction on the bytes:

> `flatMap_run`: the rows hold the bytes.
> `filterMap_label?`, `filterMap_note?`: labels and notes have one row each, at their offsets.
> `of_bytes`: a row has one to eight bytes, and nothing begins in the middle of it.
-/

namespace Stm8

/-! ## Rows and their offsets -/

namespace Row

/-- The address of the row. -/
def address : Row → UInt32
  | label address _ => address
  | bytes address _ _ => address

/-- The bytes of the row. -/
def run : Row → List UInt8
  | label _ _ => []
  | bytes _ run _ => run

/-- The rows, each with the number of bytes in front of it. -/
def placedFrom : Nat → List Row → List (Nat × Row)
  | _, [] => []
  | offset, r :: rows => (offset, r) :: placedFrom (offset + r.run.length) rows

theorem exists_mem_placedFrom {r : Row} {rows : List Row} (hr : r ∈ rows) (offset : Nat) :
    ∃ place, (place, r) ∈ placedFrom offset rows := by
  induction rows generalizing offset with
  | nil => exact absurd hr List.not_mem_nil
  | cons first rows ih =>
    rcases List.mem_cons.mp hr with rfl | hr
    · exact ⟨offset, List.mem_cons_self⟩
    · obtain ⟨place, hplace⟩ := ih hr (offset + first.run.length)
      exact ⟨place, List.mem_cons_of_mem _ hplace⟩

/-- The label of the row with its offset and its address, if it is the row of a label. -/
def label? : Nat × Row → Option (Nat × UInt32 × String)
  | (offset, label address name) => some (offset, address, name)
  | (_, bytes _ _ _) => none

/-- The source text of the row and its offset, if it has source text. -/
def note? : Nat × Row → Option Note
  | (_, label _ _) => none
  | (offset, bytes _ _ source) => source.map (Note.mk offset)

end Row

/-! ## Lists in order -/

/-- What comes from `low` on is what is at `low` and what comes from `high` on, if there is nothing
between. -/
theorem filter_from {α : Type} {key : α → Nat} {xs : List α}
    (hsorted : xs.Pairwise fun x y => key x ≤ key y) {low high : Nat} (hlt : low < high)
    (hnone : ∀ x ∈ xs, low < key x → high ≤ key x) :
    xs.filter (fun x => decide (low ≤ key x)) =
      xs.filter (fun x => key x == low) ++ xs.filter (fun x => decide (high ≤ key x)) := by
  induction xs with
  | nil => rfl
  | cons x xs ih =>
    rw [List.pairwise_cons] at hsorted
    rw [List.forall_mem_cons] at hnone
    have hrest := ih hsorted.2 hnone.2
    rcases Nat.lt_trichotomy (key x) low with hx | hx | hx
    · rw [List.filter_cons_of_neg (by simpa using hx), List.filter_cons_of_neg (by simp; omega),
        List.filter_cons_of_neg (by simp; omega), hrest]
    · rw [List.filter_cons_of_pos (by simp; omega), List.filter_cons_of_pos (by simpa using hx),
        List.filter_cons_of_neg (by simp; omega), hrest, List.cons_append]
    · -- nothing behind can be at `low` any more
      have hlow : xs.filter (fun y => key y == low) = [] := by
        rw [List.filter_eq_nil_iff]
        intro y hy hkey
        have hle := hsorted.1 y hy
        rw [beq_iff_eq.mp hkey] at hle
        omega
      have hhigh := hnone.1 hx
      rw [List.filter_cons_of_pos (by simp; omega), List.filter_cons_of_neg (by simp; omega),
        List.filter_cons_of_pos (by simpa using hhigh), hrest, hlow]
      rfl

namespace Image

/-- An image whose labels are these, in order, with their offsets, and whose notes are in order
too. -/
structure IsMarked (i : Image) (labels : List (Nat × String)) : Prop where
  /-- The labels have the addresses of their offsets. -/
  labels_eq : i.labels = labels.map fun l => (l.2, i.addressAt l.1)
  /-- Later labels stand farther behind. -/
  sorted : labels.Pairwise fun l m => l.1 ≤ m.1
  /-- None stands behind the bytes. -/
  inside : ∀ l ∈ labels, l.1 ≤ i.bytes.length
  /-- There is one note at an offset. -/
  notes_sorted : i.notes.Pairwise fun n m => n.offset < m.offset
  /-- There are bytes that a note is for. -/
  notes_inside : ∀ n ∈ i.notes, n.offset < i.bytes.length
  /-- Notes are not empty. -/
  notes_worded : ∀ n ∈ i.notes, n.text ≠ ""
  /-- Addresses do not come again. -/
  short : i.bytes.length < 2 ^ 32

variable {i : Image} {labels : List (Nat × String)}

theorem addressAt_inj {j k : Nat} (hj : j < 2 ^ 32) (hk : k < 2 ^ 32) :
    i.addressAt j = i.addressAt k ↔ j = k := by
  constructor
  · intro h
    have hnat := congrArg UInt32.toNat ((UInt32.add_right_inj i.base).mp h)
    rwa [UInt32.toNat_ofNat_of_lt' hj, UInt32.toNat_ofNat_of_lt' hk] at hnat
  · rintro rfl
    rfl

/-! ## What is looked up -/

namespace IsMarked

/-- The labels at an address are those at its offset. -/
theorem labelsAt_eq (h : i.IsMarked labels) {k : Nat} (hk : k ≤ i.bytes.length) :
    i.labelsAt (i.addressAt k) = (labels.filter fun l => l.1 == k).map (·.2) := by
  have hsame : ∀ l ∈ labels, (i.addressAt l.1 == i.addressAt k) = (l.1 == k) := by
    intro l hl
    rw [Bool.eq_iff_iff, beq_iff_eq, beq_iff_eq]
    exact addressAt_inj (Nat.lt_of_le_of_lt (h.inside l hl) h.short)
      (Nat.lt_of_le_of_lt hk h.short)
  rw [labelsAt, h.labels_eq, List.filter_map, List.map_map]
  exact congrArg (List.map _) (List.filter_congr hsame)

/-- There is at most one note at an offset. -/
theorem length_notes_le (h : i.IsMarked labels) (k : Nat) :
    (i.notes.filter fun n => n.offset == k).length ≤ 1 := by
  have hsorted := h.notes_sorted.filter fun n => n.offset == k
  have hall : ∀ n ∈ i.notes.filter (fun n => n.offset == k), n.offset = k := fun n hn =>
    beq_iff_eq.mp (List.mem_filter.mp hn).2
  cases hnotes : i.notes.filter fun n => n.offset == k with
  | nil => exact Nat.zero_le 1
  | cons n rest =>
    cases rest with
    | nil => exact Nat.le_refl 1
    | cons m rest =>
      rw [hnotes] at hsorted hall
      have hlt := List.rel_of_pairwise_cons hsorted (List.mem_cons_self (a := m))
      rw [hall n List.mem_cons_self, hall m (List.mem_cons_of_mem n List.mem_cons_self)] at hlt
      exact absurd hlt (Nat.lt_irrefl k)

/-- The source text at an address is the note at its offset. -/
theorem sourceAt?_eq (h : i.IsMarked labels) {k : Nat} (hk : k ≤ i.bytes.length) :
    (i.sourceAt? (i.addressAt k)).toList.map (Note.mk k) =
      i.notes.filter fun n => n.offset == k := by
  have hsame : ∀ n ∈ i.notes,
      (!n.text.isEmpty && i.addressAt n.offset == i.addressAt k) = (n.offset == k) := by
    intro n hn
    have hworded : n.text.isEmpty = false := by
      rw [Bool.eq_false_iff]
      exact fun hempty => h.notes_worded n hn (String.isEmpty_iff.mp hempty)
    rw [hworded, Bool.not_false, Bool.true_and, Bool.eq_iff_iff, beq_iff_eq, beq_iff_eq]
    exact addressAt_inj (Nat.lt_trans (h.notes_inside n hn) h.short)
      (Nat.lt_of_le_of_lt hk h.short)
  have hlength := h.length_notes_le k
  have hall : ∀ n ∈ i.notes.filter (fun n => n.offset == k), n.offset = k := fun n hn =>
    beq_iff_eq.mp (List.mem_filter.mp hn).2
  rw [sourceAt?, ← List.head?_filter, List.filter_reverse, List.filter_congr hsame]
  cases hnotes : i.notes.filter fun n => n.offset == k with
  | nil => rfl
  | cons n rest =>
    rw [hnotes] at hlength hall
    obtain rfl : rest = [] := List.length_eq_zero_iff.mp
      (Nat.le_zero.mp (Nat.le_of_succ_le_succ hlength))
    have hoffset := hall n List.mem_cons_self
    show [Note.mk k n.text] = [n]
    rw [← hoffset]

/-- No row has to begin where there is neither a label nor a note. -/
theorem beginsRow_eq_false_iff (h : i.IsMarked labels) {k : Nat} (hk : k ≤ i.bytes.length) :
    i.beginsRow (i.addressAt k) = false ↔
      (∀ l ∈ labels, l.1 ≠ k) ∧ ∀ n ∈ i.notes, n.offset ≠ k := by
  have hsource := h.sourceAt?_eq hk
  rw [beginsRow, h.labelsAt_eq hk, Bool.or_eq_false_iff]
  refine and_congr ?_ ?_
  · rw [Bool.not_eq_false', List.isEmpty_iff, List.map_eq_nil_iff, List.filter_eq_nil_iff]
    simp
  · have hnone : (i.sourceAt? (i.addressAt k)).isSome = false ↔
        i.notes.filter (fun n => n.offset == k) = [] := by
      rw [← hsource]
      cases i.sourceAt? (i.addressAt k) <;> simp
    rw [hnone, List.filter_eq_nil_iff]
    simp

end IsMarked

/-! ## How far a row goes -/

/-- Whether the rows are those of these bytes, the first of which are at `offset`. -/
inductive IsListed (i : Image) : Nat → List UInt8 → List Row → Prop where
  | nil (offset : Nat) : IsListed i offset [] (i.labelRows offset)
  | row {offset : Nat} {run rest : List UInt8} {rows : List Row} :
      1 ≤ run.length → run.length ≤ 8 →
      (∀ k, 0 < k → k < run.length → i.beginsRow (i.addressAt (offset + k)) = false) →
      IsListed i (offset + run.length) rest rows →
      IsListed i offset (run ++ rest)
        (i.labelRows offset ++
          .bytes (i.addressAt offset) run (i.sourceAt? (i.addressAt offset)) :: rows)

/-- A row ends in front of the first place where another one has to begin. -/
theorem runLength_spec (i : Image) (offset : Nat) {left : Nat} (hleft : 1 ≤ left) :
    1 ≤ i.runLength offset left ∧ i.runLength offset left ≤ 8 ∧ i.runLength offset left ≤ left ∧
      ∀ k, 0 < k → k < i.runLength offset left →
        i.beginsRow (i.addressAt (offset + k)) = false := by
  let places := List.range' 1 (min rowLength left - 1)
  let free := fun k => !i.beginsRow (i.addressAt (offset + k))
  have hpassed : places.takeWhile free <+: places := List.takeWhile_prefix free
  have hlength : (places.takeWhile free).length ≤ min rowLength left - 1 := by
    have hle := hpassed.length_le
    rwa [List.length_range'] at hle
  have hrow : rowLength = 8 := rfl
  have hlast : i.runLength offset left = 1 + (places.takeWhile free).length := rfl
  refine ⟨by omega, by omega, by omega, fun k hk hlt => ?_⟩
  -- the place is one of those that were passed
  have hplace : k - 1 < (places.takeWhile free).length := by omega
  have hget : (places.takeWhile free)[k - 1] = k := by
    rw [hpassed.getElem hplace, List.getElem_range']
    omega
  have hfree := List.all_eq_true.mp (@List.all_takeWhile _ free places) _ (List.getElem_mem hplace)
  rw [hget] at hfree
  simpa [free] using hfree

/-- The listing of the bytes from an offset on. -/
theorem isListed_rowsFrom (i : Image) (offset : Nat) (bytes : List UInt8) :
    i.IsListed offset bytes (i.rowsFrom offset bytes) := by
  induction offset, bytes using rowsFrom.induct (i := i) with
  | case1 offset =>
    rw [rowsFrom]
    exact .nil offset
  | case2 offset b rest n ih =>
    obtain ⟨hpos, hfew, hleft, hfree⟩ := i.runLength_spec offset (Nat.le_add_left 1 rest.length)
    have htake : ((b :: rest).take n).length = n := by
      rw [List.length_take, List.length_cons]
      exact Nat.min_eq_left hleft
    have hdrop : rest.drop (n - 1) = (b :: rest).drop n := by
      obtain ⟨m, hm⟩ : ∃ m, n = m + 1 := ⟨n - 1, (Nat.sub_add_cancel hpos).symm⟩
      rw [hm, List.drop_succ_cons, Nat.add_sub_cancel]
    rw [hdrop] at ih
    rw [rowsFrom]
    have hrow := @IsListed.row i offset ((b :: rest).take n) ((b :: rest).drop n) _
      (by rwa [htake]) (by rwa [htake]) (by rwa [htake]) (by rwa [htake])
    rw [List.take_append_drop, ← hdrop] at hrow
    exact hrow

namespace IsListed

open Row

variable {offset : Nat} {bytes : List UInt8} {rows : List Row}

/-! ## What the rows are -/

/-- Rows of labels have no bytes, so they are all at the offset of the first one. -/
theorem placedFrom_labelRows (i : Image) (offset : Nat) (behind : List Row) :
    placedFrom offset (i.labelRows offset ++ behind) =
      (i.labelRows offset).map (Prod.mk offset) ++ placedFrom offset behind := by
  unfold labelRows
  induction i.labelsAt (i.addressAt offset) with
  | nil => rfl
  | cons name names ih => exact congrArg (List.cons _) ih

theorem flatMap_labelRows (i : Image) (offset : Nat) : (i.labelRows offset).flatMap run = [] := by
  rw [List.flatMap_eq_nil_iff]
  intro r hr
  obtain ⟨name, -, rfl⟩ := List.mem_map.mp hr
  rfl

/-- The rows hold the bytes. -/
theorem flatMap_run (h : i.IsListed offset bytes rows) : rows.flatMap run = bytes := by
  induction h with
  | nil offset => exact flatMap_labelRows i offset
  | row _ _ _ _ ih =>
    rw [List.flatMap_append, flatMap_labelRows, List.nil_append, List.flatMap_cons, ih]
    rfl

/-- A row of bytes has one to eight of them and the address of the first, and there is no place in
the middle of it where another row would have to begin. -/
theorem of_bytes (h : i.IsListed offset bytes rows) {place : Nat} {address : UInt32}
    {run : List UInt8} {source : Option String}
    (hmem : (place, Row.bytes address run source) ∈ placedFrom offset rows) :
    address = i.addressAt place ∧ 1 ≤ run.length ∧ run.length ≤ 8 ∧
      place + run.length ≤ offset + bytes.length ∧
      ∀ k, 0 < k → k < run.length → i.beginsRow (i.addressAt (place + k)) = false := by
  have hlabels : ∀ offset, (place, Row.bytes address run source) ∉
      (i.labelRows offset).map (Prod.mk offset) := by
    intro offset hmem
    obtain ⟨r, hr, heq⟩ := List.mem_map.mp hmem
    obtain ⟨name, -, rfl⟩ := List.mem_map.mp hr
    cases heq
  induction h with
  | nil offset =>
    have hplaced := placedFrom_labelRows i offset []
    rw [List.append_nil] at hplaced
    rw [hplaced] at hmem
    exact absurd ((List.mem_append.mp hmem).resolve_right List.not_mem_nil) (hlabels offset)
  | @row offset front rest rows hpos hfew hfree _ ih =>
    rw [placedFrom_labelRows, List.mem_append, placedFrom, List.mem_cons] at hmem
    rw [List.length_append]
    rcases hmem with hmem | hmem | hmem
    · exact absurd hmem (hlabels offset)
    · cases hmem
      exact ⟨rfl, hpos, hfew, by omega, hfree⟩
    · obtain ⟨haddress, hpos', hfew', hend, hfree'⟩ := ih hmem
      exact ⟨haddress, hpos', hfew', by omega, hfree'⟩

/-- The rows of labels are followed by the row of the bytes at their address, or by nothing. -/
theorem exists_after_label (h : i.IsListed offset bytes rows) {before behind : List Row}
    {address : UInt32} {name : String} (hrows : rows = before ++ .label address name :: behind) :
    ∃ (names : List String) (rest : List Row), behind = names.map (.label address) ++ rest ∧
      (rest = [] ∨ ∃ run source rows', rest = .bytes address run source :: rows') := by
  have hlabels : ∀ offset, ∀ {before behind : List Row},
      i.labelRows offset = before ++ .label address name :: behind →
      address = i.addressAt offset ∧
        ∃ names : List String, behind = names.map (.label address) := by
    intro offset before behind hsplit
    obtain ⟨front, back, -, -, hback⟩ := List.map_eq_append_iff.mp hsplit
    obtain ⟨other, names, -, hother, hnames⟩ := List.map_eq_cons_iff.mp hback
    obtain ⟨rfl, -⟩ := Row.label.inj hother
    exact ⟨rfl, names, hnames.symm⟩
  induction h generalizing before behind with
  | nil offset =>
    obtain ⟨-, names, rfl⟩ := hlabels offset hrows
    exact ⟨names, [], (List.append_nil _).symm, Or.inl rfl⟩
  | @row offset front rest rows _ _ _ _ ih =>
    rcases List.append_eq_append_iff.mp hrows with ⟨mid, -, hmid⟩ | ⟨mid, hfront, hmid⟩
    · cases mid with
      | nil => cases hmid
      | cons r mid => exact ih (List.cons.inj hmid).2
    · cases mid with
      | nil => cases hmid
      | cons r mid =>
        obtain ⟨rfl, rfl⟩ := List.cons.inj hmid
        obtain ⟨rfl, names, rfl⟩ := hlabels offset hfront
        exact ⟨names, _, rfl, Or.inr ⟨front, _, rows, rfl⟩⟩

/-! ## Labels and notes -/

section

variable (hmarked : i.IsMarked labels)

include hmarked

/-- Nothing begins in the middle of a row. -/
theorem forall_mark_le {run : List UInt8} (hend : offset + run.length ≤ i.bytes.length)
    (hfree : ∀ k, 0 < k → k < run.length → i.beginsRow (i.addressAt (offset + k)) = false) :
    (∀ l ∈ labels, offset < l.1 → offset + run.length ≤ l.1) ∧
      ∀ n ∈ i.notes, offset < n.offset → offset + run.length ≤ n.offset := by
  have hnone : ∀ place, offset < place → place < offset + run.length →
      (∀ l ∈ labels, l.1 ≠ place) ∧ ∀ n ∈ i.notes, n.offset ≠ place := by
    intro place hlt hstop
    have hbegins := hfree (place - offset) (by omega) (by omega)
    rw [show offset + (place - offset) = place by omega] at hbegins
    exact (hmarked.beginsRow_eq_false_iff (by omega)).mp hbegins
  constructor
  · intro l hl hlt
    exact Nat.le_of_not_lt fun hstop => (hnone l.1 hlt hstop).1 l hl rfl
  · intro n hn hlt
    exact Nat.le_of_not_lt fun hstop => (hnone n.offset hlt hstop).2 n hn rfl

theorem filterMap_labelRows (hoffset : offset ≤ i.bytes.length) :
    ((i.labelRows offset).map (Prod.mk offset)).filterMap label? =
      (labels.filter fun l => l.1 == offset).map fun l => (l.1, i.addressAt l.1, l.2) := by
  rw [labelRows, hmarked.labelsAt_eq hoffset, List.map_map, List.map_map, List.filterMap_map]
  refine List.filterMap_eq_map_iff_forall_eq_some.mpr fun l hl => ?_
  rw [← beq_iff_eq.mp (List.mem_filter.mp hl).2]
  rfl

/-- The labels have one row each, at their offsets. -/
theorem filterMap_label? (h : i.IsListed offset bytes rows)
    (hend : offset + bytes.length = i.bytes.length) :
    (placedFrom offset rows).filterMap label? =
      (labels.filter fun l => decide (offset ≤ l.1)).map fun l => (l.1, i.addressAt l.1, l.2) := by
  induction h with
  | nil offset =>
    have hplaced := placedFrom_labelRows i offset []
    rw [List.append_nil, placedFrom, List.append_nil] at hplaced
    rw [hplaced, filterMap_labelRows hmarked (by omega)]
    refine congrArg (List.map _) (List.filter_congr fun l hl => ?_)
    have hle := hmarked.inside l hl
    rw [Bool.eq_iff_iff, beq_iff_eq, decide_eq_true_iff]
    simp at hend
    omega
  | @row offset run rest rows hpos _ hfree _ ih =>
    rw [List.length_append] at hend
    obtain ⟨hlabels, -⟩ := forall_mark_le hmarked (by omega) hfree
    rw [placedFrom_labelRows, List.filterMap_append, filterMap_labelRows hmarked (by omega),
      placedFrom, List.filterMap_cons_none rfl,
      filter_from hmarked.sorted (Nat.lt_add_of_pos_right hpos) hlabels, List.map_append]
    exact congrArg _ (ih (by omega))

/-- The notes have one row each, at their offsets. -/
theorem filterMap_note? (h : i.IsListed offset bytes rows)
    (hend : offset + bytes.length = i.bytes.length) :
    (placedFrom offset rows).filterMap note? =
      i.notes.filter fun n => decide (offset ≤ n.offset) := by
  have hlabels : ∀ offset, ((i.labelRows offset).map (Prod.mk offset)).filterMap note? = [] := by
    intro offset
    rw [List.filterMap_eq_nil_iff]
    intro p hp
    obtain ⟨r, hr, rfl⟩ := List.mem_map.mp hp
    obtain ⟨name, -, rfl⟩ := List.mem_map.mp hr
    rfl
  induction h with
  | nil offset =>
    have hplaced := placedFrom_labelRows i offset []
    rw [List.append_nil, placedFrom, List.append_nil] at hplaced
    rw [hplaced, hlabels, eq_comm, List.filter_eq_nil_iff]
    intro n hn
    have hlt := hmarked.notes_inside n hn
    simp at hend ⊢
    omega
  | @row offset run rest rows hpos _ hfree _ ih =>
    rw [List.length_append] at hend
    obtain ⟨-, hnotes⟩ := forall_mark_le hmarked (by omega) hfree
    have hsorted := hmarked.notes_sorted.imp fun h => Nat.le_of_lt h
    rw [placedFrom_labelRows, List.filterMap_append, hlabels, List.nil_append, placedFrom,
      filter_from hsorted (Nat.lt_add_of_pos_right hpos) hnotes,
      ← hmarked.sourceAt?_eq (by omega), ← ih (by omega)]
    cases hsource : i.sourceAt? (i.addressAt offset) with
    | none => exact List.filterMap_cons_none rfl
    | some text => exact List.filterMap_cons_some rfl

end

end IsListed

end Image

end Stm8
