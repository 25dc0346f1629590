import Stm8.Proofs.Assembler.Labels
import Stm8.Proofs.Assembler.Stretches
import Stm8.Proofs.Image.Rows
import Stm8.Proofs.Line.Source
import Stm8.Proofs.Text.Digits

/-!
# Listings of finished programs

A row of a listing can be read again (`readRow?`): the address up to the first blank, the bytes
in sixteen columns, and what stands behind them. That is how a listing shows a program. What
has to be shown is taken down while the program is assembled: the definitions of labels
(`definitions`) and the statements whose text is kept (`notesFrom`).

> `listing_complete`: a listing shows all bytes of the program, each label once, in front of
> the bytes at its address, and the text of each statement once, beside its first byte.
-/

namespace Stm8

open Stm8.Text

/-! ## Reading a row -/

namespace Text

/-- The bytes of hexadecimal digits in pairs. -/
def readPairs? : List Char → Option (List UInt8)
  | [] => some []
  | [_] => none
  | c :: d :: rest => do
    let n ← readDigits? 16 [c, d]
    let bytes ← readPairs? rest
    return UInt8.ofNat n :: bytes

theorem digit?_toUpper_digitChar {d : Nat} (hd : d < 16) :
    digit? 16 (Nat.digitChar d).toUpper = some d ∧
      (Nat.digitChar d).toUpper ≠ ' ' ∧ (Nat.digitChar d).toUpper ≠ '\n' := by
  have hall : ∀ d < 16, digit? 16 (Nat.digitChar d).toUpper = some d ∧
      (Nat.digitChar d).toUpper ≠ ' ' ∧ (Nat.digitChar d).toUpper ≠ '\n' := by decide
  exact hall d hd

theorem toList_hexUpper (least n : Nat) :
    (hexUpper least n).toList = ((Nat.toDigits 16 n).leftpad least '0').map Char.toUpper := by
  have hzero : '0'.toUpper = '0' := rfl
  rw [hexUpper, String.toList_ofList, List.leftpad, List.leftpad, List.map_append,
    List.map_replicate, List.length_map, hzero]

theorem exists_of_mem_leftpad {least n : Nat} {c : Char}
    (hc : c ∈ (Nat.toDigits 16 n).leftpad least '0') : ∃ d < 16, c = Nat.digitChar d := by
  rw [List.leftpad, List.mem_append] at hc
  rcases hc with hc | hc
  · exact ⟨0, by decide, (List.mem_replicate.mp hc).2⟩
  · exact exists_of_mem_toDigits (by decide) n c hc

theorem readDigits?_hexUpper (least n : Nat) :
    readDigits? 16 (hexUpper least n).toList = some n := by
  have hsame : ∀ {cs : List Char}, (∀ c ∈ cs, ∃ d < 16, c = Nat.digitChar d) →
      (cs.map Char.toUpper).mapM (digit? 16) = cs.mapM (digit? 16) := by
    intro cs h
    induction cs with
    | nil => rfl
    | cons c cs ih =>
      rw [List.forall_mem_cons] at h
      obtain ⟨⟨d, hd, rfl⟩, hcs⟩ := h
      rw [List.map_cons, List.mapM_cons, List.mapM_cons, ih hcs, (digit?_toUpper_digitChar hd).1,
        digit?_digitChar hd (by decide)]
  rw [toList_hexUpper, ← @readDigits?_toDigits 16 (by decide) (by decide) least n]
  unfold readDigits?
  rw [List.isEmpty_map, hsame fun c hc => exists_of_mem_leftpad hc]

theorem ne_of_mem_hexUpper (least n : Nat) :
    ∀ c ∈ (hexUpper least n).toList, c ≠ ' ' ∧ c ≠ '\n' := by
  rw [toList_hexUpper, List.forall_mem_map]
  intro c hc
  obtain ⟨d, hd, rfl⟩ := exists_of_mem_leftpad hc
  exact (digit?_toUpper_digitChar hd).2

theorem length_hexUpper {n : Nat} (hn : n < 256) : (hexUpper 2 n).toList.length = 2 := by
  rw [toList_hexUpper, List.length_map, List.length_leftpad]
  by_cases hlow : n < 16
  · rw [Nat.toDigits_of_lt_base hlow]
    rfl
  · rw [Nat.toDigits_of_base_le (by decide) (Nat.not_lt.mp hlow),
      Nat.toDigits_of_lt_base (by omega)]
    rfl

/-- The digits of bytes, two of each. -/
theorem readPairs?_hexUpper (bytes : List UInt8) :
    readPairs? (bytes.flatMap fun b => (hexUpper 2 b.toNat).toList) = some bytes ∧
      (bytes.flatMap fun b => (hexUpper 2 b.toNat).toList).length = 2 * bytes.length := by
  induction bytes with
  | nil => exact ⟨rfl, rfl⟩
  | cons b bytes ih =>
    obtain ⟨c, d, hcd⟩ := List.length_eq_two.mp (length_hexUpper b.toNat_lt)
    have hread := readDigits?_hexUpper 2 b.toNat
    rw [hcd] at hread
    rw [List.flatMap_cons, hcd]
    constructor
    · rw [List.cons_append, List.cons_append, List.nil_append, readPairs?, hread, ih.1]
      show some (UInt8.ofNat b.toNat :: bytes) = _
      rw [UInt8.ofNat_toNat]
    · rw [List.length_append, ih.2, List.length_cons, List.length_cons, List.length_cons,
        List.length_nil]
      omega

end Text

namespace Row

/-- What stands behind the bytes of the row. -/
def remark : Row → String
  | label _ name => name ++ ":"
  | bytes _ _ source =>
    match source with
    | some text => "  " ++ text
    | none => ""

end Row

/-- The address, the bytes and the rest of a row. -/
def readRow? (text : List Char) : Option (Nat × List UInt8 × String) := do
  let digits := text.takeWhile (· != ' ')
  let columns := text.drop (digits.length + 2)
  let address ← readDigits? 16 digits
  let bytes ← readPairs? ((columns.take 16).takeWhile (· != ' '))
  return (address, bytes, String.ofList (columns.drop 16))

/-- The columns of a row. -/
theorem Row.toList_text (r : Row) :
    r.text.toList = (hexUpper 6 r.address.toNat).toList ++ ' ' :: ' ' ::
      ((r.run.flatMap fun b => (hexUpper 2 b.toNat).toList) ++
        List.replicate (16 - 2 * r.run.length) ' ' ++ r.remark.toList) := by
  cases r with
  | label address name =>
    show (hexUpper 6 address.toNat ++ String.ofList (List.replicate 18 ' ') ++ name ++ ":").toList =
      (hexUpper 6 address.toNat).toList ++ (List.replicate 18 ' ' ++ (name ++ ":").toList)
    rw [String.toList_append, String.toList_append, String.toList_append, String.toList_append,
      String.toList_ofList, List.append_assoc, List.append_assoc]
  | bytes address run source =>
    have hremark : (Row.bytes address run source).text =
        hexUpper 6 address.toNat ++ "  " ++ (String.join (run.map fun b => hexUpper 2 b.toNat) ++
          String.ofList (List.replicate (16 - 2 * run.length) ' ')) ++
          (Row.bytes address run source).remark := by cases source <;> rfl
    rw [hremark, String.toList_append, String.toList_append, String.toList_append,
      String.toList_append, String.toList_join, List.flatMap_map, String.toList_ofList,
      String.toList_ofList, List.append_assoc, List.append_assoc]
    rfl

/-- A row shows its address, its bytes and what stands behind them. -/
theorem Row.readRow?_text {r : Row} (hfew : r.run.length ≤ 8) :
    readRow? r.text.toList = some (r.address.toNat, r.run, r.remark) := by
  let digits := (hexUpper 6 r.address.toNat).toList
  let pairs := r.run.flatMap fun b => (hexUpper 2 b.toNat).toList
  let columns := pairs ++ List.replicate (16 - 2 * r.run.length) ' '
  obtain ⟨hpairs, hlength⟩ := readPairs?_hexUpper r.run
  have hcolumns : columns.length = 16 := by
    rw [List.length_append, List.length_replicate, hlength]
    omega
  have hsolid : ∀ c ∈ pairs, (c != ' ') = true := by
    intro c hc
    obtain ⟨b, -, hc⟩ := List.mem_flatMap.mp hc
    exact bne_iff_ne.mpr (ne_of_mem_hexUpper 2 b.toNat c hc).1
  have htext : r.text.toList = digits ++ ' ' :: ' ' :: (columns ++ r.remark.toList) :=
    r.toList_text
  have hdigits : r.text.toList.takeWhile (· != ' ') = digits := by
    rw [htext, List.takeWhile_append_of_pos fun c hc =>
        bne_iff_ne.mpr (ne_of_mem_hexUpper 6 _ c hc).1,
      List.takeWhile_cons_of_neg (by decide), List.append_nil]
  have hdrop : r.text.toList.drop (digits.length + 2) = columns ++ r.remark.toList := by
    rw [htext, List.drop_length_add_append]
    rfl
  have hblank : columns.takeWhile (· != ' ') = pairs := by
    rw [List.takeWhile_append_of_pos hsolid, List.takeWhile_replicate, if_neg (by decide),
      List.append_nil]
  unfold readRow?
  rw [hdigits]
  dsimp only
  rw [hdrop, List.take_left' hcolumns, List.drop_left' hcolumns, hblank, hpairs,
    readDigits?_hexUpper, String.ofList_toList]
  rfl

/-- The row is a line if what stands behind the bytes is one. -/
theorem Row.notMem_text {r : Row} (h : '\n' ∉ r.remark.toList) : '\n' ∉ r.text.toList := by
  have hdigits : ∀ least n, '\n' ∉ (hexUpper least n).toList := fun least n hc =>
    (ne_of_mem_hexUpper least n '\n' hc).2 rfl
  have hpairs : '\n' ∉ r.run.flatMap fun b => (hexUpper 2 b.toNat).toList := fun hc =>
    have ⟨b, _, hc⟩ := List.mem_flatMap.mp hc
    hdigits 2 b.toNat hc
  rw [r.toList_text]
  simp [hdigits, hpairs, h]

/-! ## Whole listings -/

/-- Whether the listing of the image shows its bytes, these labels and these notes. -/
structure Image.IsShown (i : Image) (labels : List (Nat × String)) (notes : List Note) :
    Prop where
  /-- The listing consists of rows. -/
  text : i.listing = String.join (i.rows.map fun r => r.text ++ "\n")
  /-- The rows are its lines, unless a name or a note has line breaks of its own. -/
  lines : (∀ l ∈ labels, '\n' ∉ l.2.toList) → (∀ n ∈ notes, '\n' ∉ n.text.toList) →
    Assembler.splitLines i.listing.toList = i.rows.map fun r => r.text.toList ++ ['\n']
  /-- The rows can be read. -/
  legible : ∀ r ∈ i.rows, readRow? r.text.toList = some (r.address.toNat, r.run, r.remark)
  /-- All bytes are there. -/
  bytes : i.rows.flatMap Row.run = i.bytes
  /-- A row of bytes has one to eight of them and the address of the first. -/
  row : ∀ place address run source,
    (place, Row.bytes address run source) ∈ Row.placedFrom 0 i.rows →
      1 ≤ run.length ∧ run.length ≤ 8 ∧ address.toNat = (i.base.toNat + place) % 2 ^ 32
  /-- Each label has one row, at its offset, and its address. -/
  labelled : (Row.placedFrom 0 i.rows).filterMap Row.label? =
    labels.map fun l => (l.1, i.addressAt l.1, l.2)
  /-- The next row that is not one of a label at the same address is that of the bytes at the
  address, unless the listing ends there. -/
  followed : ∀ before address name behind, i.rows = before ++ .label address name :: behind →
    ∃ (names : List String) (rest : List Row), behind = names.map (.label address) ++ rest ∧
      (rest = [] ∨ ∃ run source rows, rest = .bytes address run source :: rows)
  /-- Each note has one row, at its offset. -/
  noted : (Row.placedFrom 0 i.rows).filterMap Row.note? = notes
  /-- Neither a label nor a note belongs to the middle of a row. -/
  whole : ∀ place address run source,
    (place, Row.bytes address run source) ∈ Row.placedFrom 0 i.rows →
      ∀ k, 0 < k → k < run.length →
        (∀ l ∈ labels, i.addressAt l.1 ≠ address + UInt32.ofNat k) ∧
        ∀ n ∈ notes, i.addressAt n.offset ≠ address + UInt32.ofNat k

/-- Lines that were put together come apart again. -/
theorem Assembler.splitLines_join {rows : List Row} (h : ∀ r ∈ rows, '\n' ∉ r.text.toList) :
    splitLines (String.join (rows.map fun r => r.text ++ "\n")).toList =
      rows.map fun r => r.text.toList ++ ['\n'] := by
  have hbreak : "\n".toList = ['\n'] := rfl
  rw [String.toList_join, List.flatMap_map]
  induction rows with
  | nil => rfl
  | cons r rows ih =>
    rw [List.forall_mem_cons] at h
    rw [List.flatMap_cons, String.toList_append, hbreak, List.append_assoc, List.singleton_append,
      splitLines_append h.1, ih h.2, List.map_cons]

namespace Image.IsMarked

variable {i : Image} {labels : List (Nat × String)} (h : i.IsMarked labels)

include h

theorem filterMap_label? : (Row.placedFrom 0 i.rows).filterMap Row.label? =
    labels.map fun l => (l.1, i.addressAt l.1, l.2) := by
  have hall := (i.isListed_rowsFrom 0 i.bytes).filterMap_label? h (Nat.zero_add _)
  rwa [List.filter_eq_self.mpr fun l _ => decide_eq_true (Nat.zero_le l.1)] at hall

theorem filterMap_note? : (Row.placedFrom 0 i.rows).filterMap Row.note? = i.notes := by
  have hall := (i.isListed_rowsFrom 0 i.bytes).filterMap_note? h (Nat.zero_add _)
  rwa [List.filter_eq_self.mpr fun n _ => decide_eq_true (Nat.zero_le n.offset)] at hall

/-- A row is one line if the names and the notes are. -/
theorem notMem_text (hnames : ∀ l ∈ labels, '\n' ∉ l.2.toList)
    (htexts : ∀ n ∈ i.notes, '\n' ∉ n.text.toList) : ∀ r ∈ i.rows, '\n' ∉ r.text.toList := by
  intro r hr
  obtain ⟨place, hplace⟩ := Row.exists_mem_placedFrom hr 0
  refine Row.notMem_text ?_
  cases r with
  | label address name =>
    have hname : (place, address, name) ∈ labels.map fun l => (l.1, i.addressAt l.1, l.2) :=
      h.filterMap_label? ▸ List.mem_filterMap.mpr ⟨_, hplace, rfl⟩
    obtain ⟨l, hl, rfl, rfl, rfl⟩ := List.mem_map.mp hname
    have hcolon : '\n' ∉ ":".toList := by decide
    rw [Row.remark, String.toList_append, List.mem_append, not_or]
    exact ⟨hnames l hl, hcolon⟩
  | bytes address run source =>
    cases source with
    | none => exact List.not_mem_nil
    | some text =>
      have hnote : Note.mk place text ∈ i.notes :=
        h.filterMap_note? ▸ List.mem_filterMap.mpr ⟨_, hplace, rfl⟩
      have hblank : '\n' ∉ "  ".toList := by decide
      show '\n' ∉ ("  " ++ text).toList
      rw [String.toList_append, List.mem_append, not_or]
      exact ⟨hblank, htexts _ hnote⟩

/-- What is in the middle of a row is at no address of a label or of a note. -/
theorem addressAt_ne {place : Nat} {address : UInt32} {run : List UInt8} {source : Option String}
    (hmem : (place, Row.bytes address run source) ∈ Row.placedFrom 0 i.rows) {k : Nat}
    (hpos : 0 < k) (hlt : k < run.length) :
    (∀ l ∈ labels, i.addressAt l.1 ≠ address + UInt32.ofNat k) ∧
      ∀ n ∈ i.notes, i.addressAt n.offset ≠ address + UInt32.ofNat k := by
  obtain ⟨rfl, -, -, hstop, hfree⟩ := (i.isListed_rowsFrom 0 i.bytes).of_bytes hmem
  have hshort := h.short
  have hinside : place + k < i.bytes.length := by omega
  have haddress : i.addressAt place + UInt32.ofNat k = i.addressAt (place + k) := by
    rw [addressAt, addressAt, UInt32.add_assoc, UInt32.ofNat_add]
  obtain ⟨hlabels, hnotes⟩ :=
    (h.beginsRow_eq_false_iff (Nat.le_of_lt hinside)).mp (hfree k hpos hlt)
  rw [haddress]
  constructor
  · intro l hl heq
    have hle := h.inside l hl
    exact hlabels l hl ((addressAt_inj (by omega) (by omega)).mp heq)
  · intro n hn heq
    have hbefore := h.notes_inside n hn
    exact hnotes n hn ((addressAt_inj (by omega) (by omega)).mp heq)

/-- Nothing is missing from a listing. -/
theorem isShown : i.IsShown labels i.notes := by
  have hlisted : i.IsListed 0 i.bytes i.rows := i.isListed_rowsFrom 0 i.bytes
  refine
    { text := rfl
      lines := fun hnames htexts => Assembler.splitLines_join (h.notMem_text hnames htexts)
      legible := fun r hr => Row.readRow?_text ?_
      bytes := hlisted.flatMap_run
      row := fun place address run source hmem => ?_
      labelled := h.filterMap_label?
      followed := fun before address name behind hrows => hlisted.exists_after_label hrows
      noted := h.filterMap_note?
      whole := fun place address run source hmem k => h.addressAt_ne hmem }
  · cases r with
    | label address name => exact Nat.zero_le 8
    | bytes address run source =>
      obtain ⟨place, hplace⟩ := Row.exists_mem_placedFrom hr 0
      exact (hlisted.of_bytes hplace).2.2.1
  · obtain ⟨rfl, hpos, hfew, -, -⟩ := hlisted.of_bytes hmem
    exact ⟨hpos, hfew, Assembler.toNat_address i.base place⟩

end Image.IsMarked

namespace Assembler

variable {a : Assembler}

/-- Linking leaves no bytes out. -/
theorem IsPending.length_image (h : a.IsPending) : a.image.bytes.length = a.code.length :=
  (congrArg (fun l => l.code.length) (link_eq h.inside)).trans
    (Relocation.length_patch h.inside)

/-- A program has its labels and its notes in order. -/
theorem IsHistory.isMarked {log : List Attempt} (h : IsHistory a log) {puts : List Stretch}
    (hnoted : IsNoted a puts) (hpending : a.IsPending) (hshort : a.image.bytes.length < 2 ^ 32) :
    a.image.IsMarked ((definitions log).map fun d => (d.offset, d.name)) := by
  have hnotes : a.image.notes = notesFrom 0 puts := hnoted.notes
  obtain ⟨hsorted, hinside⟩ := notesFrom_spec hnoted.filled 0
  rw [Nat.zero_add, ← hnoted.code, ← hpending.length_image] at hinside
  exact
    { labels_eq := by
        rw [h.labels_image, List.map_map]
        rfl
      sorted := by
        have hlabels := h.sorted
        rw [h.labels, List.pairwise_map] at hlabels
        exact List.pairwise_map.mpr hlabels
      inside := by
        rw [hpending.length_image, List.forall_mem_map]
        intro d hd
        refine h.inside d.toLabel ?_
        rw [h.labels]
        exact List.mem_map_of_mem hd
      notes_sorted := hnotes ▸ hsorted
      notes_inside := hnotes ▸ fun n hn => (hinside n hn).2.1
      notes_worded := hnotes ▸ fun n hn => (hinside n hn).2.2
      short := hshort }

/-- **A listing is complete.** When a session is finished with fewer than 2³² bytes, wherever its
addresses begin, there are as many bytes as its statements put, and the listing shows them all.
Each label that the session has defined has a row, in front of the bytes at its address and at
its offset in the order of the definitions, and the text of each statement that was read with the
listing turned on stands beside the first byte of the statement. -/
theorem listing_complete (steps : List Step) {image : Image}
    (hfinish : (run {} steps).finish = .ok image) (hshort : image.bytes.length < 2 ^ 32) :
    image.base = (run {} steps).base ∧
      image.bytes.length = ((stretches {} steps).flatMap Stretch.bytes).length ∧
      image.IsShown ((definitions (attempts {} steps)).map fun d => (d.offset, d.name))
        (notesFrom 0 (stretches {} steps)) := by
  obtain rfl : image = (run {} steps).image := by
    rcases (run {} steps).finish_cases with ⟨-, hok⟩ | ⟨report, -, herror⟩
    · rw [hok] at hfinish
      exact (Except.ok.inj hfinish).symm
    · rw [herror] at hfinish
      cases hfinish
  have hhistory : IsHistory (run {} steps) (attempts {} steps) := isHistory_nil.run
  have hnoted : IsNoted (run {} steps) (stretches {} steps) := isNoted_run isNoted_nil
  have hpending : (run {} steps).IsPending := isPending_of_reachable ⟨steps, rfl⟩
  have hnotes : (run {} steps).image.notes = notesFrom 0 (stretches {} steps) := hnoted.notes
  exact ⟨rfl, hpending.length_image.trans (congrArg List.length hnoted.code),
    hnotes ▸ (hhistory.isMarked hnoted hpending hshort).isShown⟩

/-- Bytes around the last address, with a label at address 0. -/
theorem listing_complete_wrapped :
    let steps := [Step.base 0xFFFFFFFE, .listing, .emit ".db 1, 2\nnext: .db 3 ; last\n.db 4"]
    ∃ image, (run {} steps).finish = .ok image ∧ image.bytes.length < 2 ^ 32 ∧
      image.IsShown [(2, "next")] [⟨0, ".db 1, 2"⟩, ⟨2, ".db 3"⟩, ⟨3, ".db 4"⟩] := by
  intro steps
  have hrejections : (run {} steps).rejections = [] := by decide +kernel
  have hlog : (definitions (attempts {} steps)).map (fun d => (d.offset, d.name)) =
      [(2, "next")] := by decide +kernel
  have hputs : stretches {} steps =
      [⟨[1, 2], some ".db 1, 2"⟩, ⟨[3], some ".db 3"⟩, ⟨[4], some ".db 4"⟩] := by
    decide +kernel
  have hshort : (run {} steps).image.bytes.length < 2 ^ 32 := by decide +kernel
  obtain ⟨-, -, hshown⟩ := listing_complete steps (finish_eq_image hrejections) hshort
  rw [hlog, hputs] at hshown
  exact ⟨_, finish_eq_image hrejections, hshort, hshown⟩

end Assembler

end Stm8
