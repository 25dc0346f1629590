import Stm8.Form.Catalog
import Stm8.Proofs.Text.Endings

/-!
# The index agrees with the table

`Catalog.ofForms` builds its two maps by one pass over a list of forms. Read
back, they are what a search through that list finds:

> `withOpcode?_ofForms`: the form under an opcode is the first one that has it.
> `forms_ofForms`: the forms under a mnemonic are all that have it, in order.

Names in the table are in small letters (`lower_mnemonic`), so that a look-up in
`catalog` is the search that `resolve` makes (`resolve_catalog`), and all its answers are
given by the order of the table:

> `catalog_isFirst`: a form is selected if it is the first of its mnemonic that accepts the
> operands, the mnemonic is unknown if no form has it, and nothing matches otherwise.
-/

namespace Stm8

open Stm8.Text

namespace Catalog

/-! ## Opcodes -/

/-- A form takes effect as long as its opcode is new. -/
theorem withOpcode?_add (c : Catalog) (f : Form) (k : UInt16) :
    (c.add f).withOpcode? k = (c.withOpcode? k).or (if f.opcode = k then some f else none) := by
  unfold withOpcode? add
  rw [Std.TreeMap.getElem?_insertIfNew]
  by_cases hk : f.opcode = k
  · subst hk
    cases hc : c.byOpcode[f.opcode]? with
    | none =>
      have hmem : f.opcode ∉ c.byOpcode := by
        rw [Std.TreeMap.mem_iff_isSome_getElem?, hc]
        simp
      simp [hmem]
    | some g =>
      have hmem : f.opcode ∈ c.byOpcode := by
        rw [Std.TreeMap.mem_iff_isSome_getElem?, hc]
        rfl
      simp [hmem]
  · simp [hk]

/-- The form under an opcode is the first one that has it. -/
theorem withOpcode?_ofForms (fs : List Form) (k : UInt16) :
    (ofForms fs).withOpcode? k = fs.find? (·.opcode == k) := by
  have hfold : ∀ (fs : List Form) (c : Catalog),
      (fs.foldl add c).withOpcode? k = (c.withOpcode? k).or (fs.find? (·.opcode == k)) := by
    intro fs
    induction fs with
    | nil => intro c; simp
    | cons f fs ih =>
      intro c
      rw [List.foldl_cons, ih, withOpcode?_add, Option.or_assoc, List.find?_cons]
      by_cases hk : f.opcode = k
      · simp [hk]
      · simp [hk, beq_eq_false_iff_ne.mpr hk]
  rw [ofForms, hfold]
  rfl

/-! ## Mnemonics -/

/-- The forms of a mnemonic are kept under its small letters, also where they are not made. -/
theorem key_eq_lower (m : String) : key m = lower m := by
  unfold key
  split
  · rfl
  · next hcapital =>
    have hsmall : m.toList.map Char.toLower = m.toList.map id := by
      refine List.map_congr_left fun c hc => toLower_eq_self fun hupper => ?_
      exact hcapital (List.any_eq_true.mpr ⟨c, hc, hupper⟩)
    rw [lower, hsmall, List.map_id, String.ofList_toList]

/-- A form is put behind those of its mnemonic. -/
theorem byMnemonic_add (c : Catalog) (f : Form) (m : String) :
    (c.add f).byMnemonic.getD m [] =
      c.byMnemonic.getD m [] ++ (if f.mnemonic = m then [f] else []) := by
  unfold add
  rw [Std.TreeMap.getD_alter]
  by_cases hm : f.mnemonic = m
  · subst hm
    simp [Std.TreeMap.getD_eq_getD_getElem?]
  · simp [hm]

/-- The forms under a mnemonic are all that have it, in order. -/
theorem forms_ofForms (fs : List Form) (m : String) :
    (ofForms fs).forms m = fs.filter (·.mnemonic = lower m) := by
  have hfold : ∀ (fs : List Form) (c : Catalog),
      (fs.foldl add c).byMnemonic.getD (lower m) [] =
        c.byMnemonic.getD (lower m) [] ++ fs.filter (·.mnemonic = lower m) := by
    intro fs
    induction fs with
    | nil => intro c; simp
    | cons f fs ih =>
      intro c
      rw [List.foldl_cons, ih, byMnemonic_add, List.append_assoc, List.filter_cons]
      by_cases hm : f.mnemonic = lower m
      · simp [hm]
      · simp [hm]
  rw [forms, key_eq_lower, ofForms, hfold]
  rfl

end Catalog

/-! ## The whole table -/

/-- A form of the table is a variant of one of the families. -/
theorem Form.mem_all_iff {f : Form} :
    f ∈ Form.all ↔ ∃ family ∈ Form.families, f ∈ family.forms := by
  rw [Form.all, List.mem_flatMap]

/-- All forms of a family have its mnemonic. -/
theorem Form.Family.mnemonic_eq {family : Form.Family} {f : Form} (hf : f ∈ family.forms) :
    f.mnemonic = family.mnemonic := by
  obtain ⟨v, -, rfl⟩ := List.mem_map.mp hf
  rfl

/-- The families have names in small letters. -/
theorem Form.Family.lower_mnemonic :
    ∀ family ∈ Form.families,
      family.mnemonic.toList.map Char.toLower = family.mnemonic.toList := by
  decide +kernel

/-- Names in the table are in small letters. -/
theorem Form.lower_mnemonic {f : Form} (hf : f ∈ Form.all) :
    f.mnemonic.toList.map Char.toLower = f.mnemonic.toList := by
  obtain ⟨family, hfamily, hmem⟩ := Form.mem_all_iff.mp hf
  rw [Form.Family.mnemonic_eq hmem]
  exact Form.Family.lower_mnemonic family hfamily

/-- The mnemonic of a form in the table, in small letters, is a name of the form. -/
theorem Form.hasMnemonic_iff {f : Form} (hf : f ∈ Form.all) (m : String) :
    f.hasMnemonic m = true ↔ f.mnemonic = lower m := by
  unfold hasMnemonic sameLetters lower
  rw [beq_iff_eq, Form.lower_mnemonic hf, ← String.toList_inj, String.toList_ofList]

/-- The forms of a mnemonic in the index are those that a search finds. -/
theorem forms_catalog (m : String) :
    catalog.forms m = Form.all.filter (·.hasMnemonic m) := by
  rw [catalog, Catalog.forms_ofForms]
  refine List.filter_congr fun f hf => ?_
  rw [Bool.eq_iff_iff, Form.hasMnemonic_iff hf, decide_eq_true_iff]

/-- The form under an opcode in the index is the first one in the table. -/
theorem withOpcode?_catalog (k : UInt16) :
    catalog.withOpcode? k = Form.all.find? (·.opcode == k) := by
  rw [catalog, Catalog.withOpcode?_ofForms]

/-- Selection through the index is selection by search. -/
theorem resolve_catalog (m : String) (ops : List Operand) :
    catalog.resolve m ops = resolve m ops := by
  rw [Catalog.resolve, forms_catalog, resolve]

/-- Selection takes the first form that accepts the operands. -/
theorem select_eq_ok_iff {m : String} {fs : List Form} {ops : List Operand} {f : Form} :
    select m fs ops = .ok f ↔ fs.find? (·.accepts ops) = some f := by
  unfold select
  cases fs.find? (·.accepts ops) with
  | some g => simp
  | none =>
    dsimp only
    split <;> simp

/-- A mnemonic is unknown if there are no candidates. -/
theorem select_eq_unknownMnemonic_iff {m : String} {fs : List Form} {ops : List Operand} :
    select m fs ops = .error (.unknownMnemonic m (Operand.firstSpan ops)) ↔ fs = [] := by
  unfold select
  cases hfind : fs.find? (·.accepts ops) with
  | some g =>
    constructor
    · intro h
      cases h
    · intro h
      rw [h] at hfind
      cases hfind
  | none => cases fs <;> simp

/-- Nothing matches if there are candidates and none of them accepts the operands. -/
theorem select_eq_noMatch_iff {m : String} {fs : List Form} {ops : List Operand} :
    select m fs ops = .error (.noMatch m (Operand.texts ops) (Operand.firstSpan ops)) ↔
      fs ≠ [] ∧ ∀ f ∈ fs, f.accepts ops = false := by
  unfold select
  cases hfind : fs.find? (·.accepts ops) with
  | some g =>
    constructor
    · intro h
      cases h
    · intro h
      have hg := h.2 g (List.mem_of_find?_eq_some hfind)
      rw [@List.find?_some _ (fun f : Form => f.accepts ops) _ _ hfind] at hg
      cases hg
  | none =>
    have hnone : ∀ f ∈ fs, f.accepts ops = false := by
      simpa only [List.find?_eq_none, Bool.not_eq_true] using hfind
    cases fs with
    | nil => simp
    | cons f fs => simpa using hnone

/-- The form that operands select is in the table, has the mnemonic and accepts them. -/
theorem of_resolve {m : String} {ops : List Operand} {f : Form} (h : resolve m ops = .ok f) :
    f ∈ Form.all ∧ f.hasMnemonic m = true ∧ f.accepts ops = true := by
  have hfind := select_eq_ok_iff.mp h
  obtain ⟨hmem, hname⟩ := List.mem_filter.mp (List.mem_of_find?_eq_some hfind)
  exact ⟨hmem, hname, @List.find?_some _ (fun f : Form => f.accepts ops) _ _ hfind⟩

/-- The form that operands select is in the table. -/
theorem mem_of_resolve {m : String} {ops : List Operand} {f : Form}
    (h : resolve m ops = .ok f) : f ∈ Form.all :=
  (of_resolve h).1

/-! ## The order of the table -/

/-- Whether the form is the first one of the table with the property. -/
def Form.IsFirst (f : Form) (p : Form → Bool) : Prop :=
  ∃ front behind, Form.all = front ++ f :: behind ∧ p f = true ∧ ∀ g ∈ front, p g = false

theorem Form.isFirst_iff {f : Form} {p : Form → Bool} :
    f.IsFirst p ↔ Form.all.find? p = some f := by
  rw [List.find?_eq_some_iff_append]
  simp only [Bool.not_eq_true', IsFirst]
  constructor
  · rintro ⟨front, behind, hall, hf, hfront⟩
    exact ⟨hf, front, behind, hall, hfront⟩
  · rintro ⟨hf, front, behind, hall, hfront⟩
    exact ⟨front, behind, hall, hf, hfront⟩

/-- **The index answers as the table does.** Whatever the mnemonic and the operands,
selection through the index and selection by search have the same result: the first form
that has the mnemonic, in either case, and accepts the operands; the mnemonic is unknown
exactly if no form has it, and the operands are to blame exactly if some forms have it and
all refuse. The index lists the forms of a mnemonic in the order of the table, and knows
for every opcode the first form that has it. -/
theorem catalog_isFirst :
    (∀ (m : String) (ops : List Operand),
      catalog.resolve m ops = resolve m ops ∧
      (∀ f, catalog.resolve m ops = .ok f ↔
        f.IsFirst fun g => g.hasMnemonic m && g.accepts ops) ∧
      (catalog.resolve m ops = .error (.unknownMnemonic m (Operand.firstSpan ops)) ↔
        ∀ f ∈ Form.all, f.hasMnemonic m = false) ∧
      (catalog.resolve m ops =
          .error (.noMatch m (Operand.texts ops) (Operand.firstSpan ops)) ↔
        (∃ f ∈ Form.all, f.hasMnemonic m = true) ∧
          ∀ f ∈ Form.all, f.hasMnemonic m = true → f.accepts ops = false)) ∧
    (∀ m : String, catalog.forms m = Form.all.filter (·.hasMnemonic m)) ∧
    ∀ k : UInt16,
      (∀ f, catalog.withOpcode? k = some f ↔ f.IsFirst (·.opcode == k)) ∧
      (catalog.withOpcode? k = none ↔ ∀ f ∈ Form.all, f.opcode ≠ k) := by
  refine ⟨fun m ops => ⟨resolve_catalog m ops, ?_, ?_, ?_⟩, forms_catalog, fun k => ⟨?_, ?_⟩⟩
  · intro f
    rw [resolve_catalog, resolve, select_eq_ok_iff, List.find?_filter, Form.isFirst_iff]
    simp only [Bool.decide_and, Bool.decide_eq_true]
  · rw [resolve_catalog, resolve, select_eq_unknownMnemonic_iff, List.filter_eq_nil_iff]
    simp only [Bool.not_eq_true]
  · have hnamed : Form.all.filter (·.hasMnemonic m) ≠ [] ↔
        ∃ f ∈ Form.all, f.hasMnemonic m = true := by
      constructor
      · intro h
        obtain ⟨f, hf⟩ := List.exists_mem_of_ne_nil _ h
        exact ⟨f, List.mem_filter.mp hf⟩
      · rintro ⟨f, hf⟩
        exact List.ne_nil_of_mem (List.mem_filter.mpr hf)
    rw [resolve_catalog, resolve, select_eq_noMatch_iff, hnamed]
    simp only [List.mem_filter, and_imp]
  · intro f
    rw [withOpcode?_catalog, Form.isFirst_iff]
  · rw [withOpcode?_catalog, List.find?_eq_none]
    simp only [beq_iff_eq, ne_eq]

end Stm8
