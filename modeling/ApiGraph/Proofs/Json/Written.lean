import ApiGraph.Proofs.Json.ReadBack
import ApiGraph.Proofs.Json.Record
import ApiGraph.Proofs.Json.Unrepeated

/-! Fields that are written and read back. A record is written with its fields in their order, some
of them left out, and each is then read from where it stands (`Record.ofJson_object`); a field
that was left out is read as none. Lists and tables are read back entry by entry, a table only if
no key stands in it twice; then no key stands twice in what is written either. -/

namespace ApiGraph

variable {α β : Type}

namespace Table

theorem ofList_of_nodup {t : Table α} (unique : (keys t).Nodup) : ofList t = t :=
  insertAll_of_disjoint unique nofun

theorem insertSorted_append {t : Table α} {name : String} (after : ∀ key ∈ keys t, key < name)
    (value : α) : insertSorted t name value = t ++ [(name, value)] := by
  induction t with
  | nil => rfl
  | cons entry rest ih =>
    obtain ⟨first, old⟩ := entry
    have before : first < name := after first (by simp)
    have other : first ≠ name := String.ne_of_lt before
    rw [insertSorted, if_neg other, if_neg (String.lt_asymm before),
      ih fun key member => after key (by simp [member]), List.cons_append]

/-- What is sorted stays as it is when it is sorted. -/
theorem sorted_of_sorted {t : Table α} (h : Sorted t) : sorted t = t := by
  have all (rest before : Table α) (h : Sorted (before ++ rest)) :
      rest.foldl (fun t entry => insertSorted t entry.1 entry.2) before = before ++ rest := by
    induction rest generalizing before with
    | nil => simp
    | cons entry rest ih =>
      have after : ∀ key ∈ keys before, key < entry.1 := by
        rw [Sorted, keys_append, List.pairwise_append] at h
        exact fun key member => h.2.2 key member entry.1 (by simp)
      rw [List.foldl_cons, insertSorted_append after, ih _ (by simpa using h)]
      simp
  exact all t [] h

end Table

namespace Json

/-! Values of fields. -/

@[simp] theorem toText_string (s : String) : toText (.string s) = .ok s := rfl

@[simp] theorem toBool_bool (b : Bool) : toBool (.bool b) = .ok b := rfl

theorem toNatBelow_nat {n limit : Nat} (h : n < limit) : toNatBelow limit (nat n) = .ok n :=
  if_pos h

theorem toList_array {read : Json → Except Mismatch α} {write : α → Json} {items : List α}
    (each : ∀ a ∈ items, read (write a) = .ok a) :
    toList read (.array (items.map write)) = .ok items := by
  rw [toList]
  induction items with
  | nil => rfl
  | cons a rest ih =>
    refine mapM_cons_eq_ok.mpr ⟨a, rest, each a (by simp), ?_, rfl⟩
    exact ih fun b member => each b (by simp [member])

@[simp] theorem toList_ofTexts (texts : List String) : toList toText (ofTexts texts) = .ok texts :=
  toList_array fun _ _ => rfl

theorem toEntries_map {read : Json → Except Mismatch α} {write : α → Json} {t : Table α}
    (each : ∀ entry ∈ t, read (write entry.2) = .ok entry.2) :
    toEntries read (t.map fun (key, value) => (key, write value)) = .ok t := by
  induction t with
  | nil => rfl
  | cons entry rest ih =>
    rw [List.map_cons, toEntries, each entry (by simp),
      ih fun other member => each other (by simp [member])]
    rfl

theorem toTable_ofTable {read : Json → Except Mismatch α} {write : α → Json} {t : Table α}
    (unique : t.keys.Nodup) (each : ∀ entry ∈ t, read (write entry.2) = .ok entry.2) :
    toTable read (ofTable write t) = .ok t := by
  rw [ofTable, toTable, toEntries_map each]
  exact congrArg Except.ok (Table.ofList_of_nodup unique)

theorem toSortedTable_ofTable {read : Json → Except Mismatch α} {write : α → Json} {t : Table α}
    (sorted : Table.Sorted t) (each : ∀ entry ∈ t, read (write entry.2) = .ok entry.2) :
    toSortedTable read (ofTable write t) = .ok t := by
  rw [toSortedTable, toTable_ofTable sorted.nodup each]
  exact congrArg Except.ok (Table.sorted_of_sorted sorted)

/-- A value that may be missing, read from its field if that is there. -/
theorem elim_orNull {read : Json → Except Mismatch α} {write : α → Json} {value : Option α}
    (each : ∀ a ∈ value, read (write a) = .ok a) (filled : ∀ a, write a ≠ .null) :
    value.elim (.ok none) (orNull read ∘ write) = .ok value := by
  cases value with
  | none => rfl
  | some a =>
    have written : orNull read (write a) = (read (write a)).map some := by
      rw [orNull]
      exact filled a
    rw [Option.elim_some, Function.comp_apply, written, each a rfl]
    rfl

@[simp] theorem elim_text (value : Option String) :
    value.elim (.ok none) (orNull toText ∘ string) = .ok value :=
  elim_orNull (fun _ _ => rfl) nofun

@[simp] theorem elim_texts (value : Option (List String)) :
    value.elim (.ok none) (orNull (toList toText) ∘ ofTexts) = .ok value :=
  elim_orNull (fun texts _ => toList_ofTexts texts) nofun

/-- A list that is read from its field, if that is there. -/
theorem elim_nonEmpty {as : List α} {j : Json} {read : Json → Except Mismatch (List α)}
    (h : read j = .ok as) : (if as = [] then none else some j).elim (.ok []) read = .ok as := by
  split
  · rename_i empty
    rw [empty]
    rfl
  · exact h

/-! Fields that may be left out. -/

theorem keys_optionalField (key : String) (value : Option Json) :
    (Table.keys (optionalField key value)).Sublist [key] := by
  cases value with
  | none => exact List.nil_sublist _
  | some j => exact List.Sublist.refl _

@[simp] theorem get?_optionalField (key : String) (value : Option Json) (name : String) :
    Table.get? (optionalField key value) name = if key = name then value else none := by
  cases value with
  | none => simp [optionalField]
  | some j => exact Table.get?_cons key j [] name

theorem keys_nonEmptyField (key : String) (items : List α) (value : Json) :
    (Table.keys (nonEmptyField key items value)).Sublist [key] := by
  rw [nonEmptyField]
  split
  · exact List.nil_sublist _
  · exact List.Sublist.refl _

@[simp] theorem get?_nonEmptyField (key : String) (items : List α) (value : Json) (name : String) :
    Table.get? (nonEmptyField key items value) name =
      if key = name ∧ items ≠ [] then some value else none := by
  cases items with
  | nil => simp [nonEmptyField]
  | cons => simp [nonEmptyField, Table.get?_cons]

/-! What holds of the entries. -/

@[simp] theorem forall_optionalField {p : String × Json → Prop} {key : String}
    {value : Option Json} : (∀ e ∈ optionalField key value, p e) ↔ ∀ j ∈ value, p (key, j) := by
  cases value with
  | none => simp [optionalField]
  | some j => simp [optionalField]

@[simp] theorem forall_nonEmptyField {p : String × Json → Prop} {key : String} {items : List α}
    {value : Json} :
    (∀ e ∈ nonEmptyField key items value, p e) ↔ (items ≠ [] → p (key, value)) := by
  cases items with
  | nil => simp [nonEmptyField]
  | cons => simp [nonEmptyField]

/-! Written values without repeated keys. -/

theorem unrepeated_nat (n : Nat) : (nat n).Unrepeated := .number _

theorem unrepeated_array {write : α → Json} {items : List α}
    (each : ∀ a ∈ items, (write a).Unrepeated) : (Json.array (items.map write)).Unrepeated :=
  .array (List.forall_mem_map.mpr each)

theorem unrepeated_ofTexts (texts : List String) : (ofTexts texts).Unrepeated :=
  unrepeated_array fun text _ => .string text

theorem unrepeated_ofTable {write : α → Json} {t : Table α} (unique : t.keys.Nodup)
    (each : ∀ entry ∈ t, (write entry.2).Unrepeated) : (ofTable write t).Unrepeated := by
  refine .object ?_ (List.forall_mem_map.mpr each)
  rw [Table.keys_map fun _ => write]
  exact unique

/-! How deep written values nest. -/

attribute [simp] Plain.null Plain.bool Plain.string

theorem plain_nat (depth : Nat) {n : Nat} (fits : n ≤ JsonNumber.greatestWord) :
    Plain depth (nat n) :=
  .number depth fits

@[simp] theorem plain_ofTexts (depth : Nat) (texts : List String) :
    Plain (depth + 1) (ofTexts texts) := by
  refine .array ?_
  simp

theorem plain_array {depth : Nat} {write : α → Json} {items : List α}
    (each : ∀ a ∈ items, Plain depth (write a)) : Plain (depth + 1) (.array (items.map write)) := by
  refine .array ?_
  simpa using each

theorem plain_ofTable {depth : Nat} {write : α → Json} {t : Table α}
    (each : ∀ entry ∈ t, Plain depth (write entry.2)) : Plain (depth + 1) (ofTable write t) := by
  refine .object ?_
  intro field member
  obtain ⟨entry, there, rfl⟩ := List.mem_map.mp member
  exact each entry there

/-- Fields whose values are plain. -/
def PlainFields (depth : Nat) (fields : Table Json) : Prop :=
  ∀ entry ∈ fields, Plain depth entry.2

theorem PlainFields.object {depth : Nat} {fields : Table Json} (h : PlainFields depth fields) :
    Plain (depth + 1) (.object fields) := .object h

@[simp] theorem plainFields_nil (depth : Nat) : PlainFields depth [] := nofun

@[simp] theorem plainFields_cons {depth : Nat} {entry : String × Json} {rest : Table Json} :
    PlainFields depth (entry :: rest) ↔ Plain depth entry.2 ∧ PlainFields depth rest :=
  List.forall_mem_cons

@[simp] theorem plainFields_append {depth : Nat} {fields more : Table Json} :
    PlainFields depth (fields ++ more) ↔ PlainFields depth fields ∧ PlainFields depth more :=
  List.forall_mem_append

@[simp] theorem plainFields_optionalField {depth : Nat} {key : String} {value : Option Json} :
    PlainFields depth (optionalField key value) ↔ ∀ j ∈ value, Plain depth j :=
  forall_optionalField

@[simp] theorem plainFields_nonEmptyField {depth : Nat} {key : String} {items : List α}
    {value : Json} :
    PlainFields depth (nonEmptyField key items value) ↔ (items ≠ [] → Plain depth value) :=
  forall_nonEmptyField

end Json

namespace Record

/-- An object that holds some of the fields, in their order, is read as it stands. -/
theorem ofFields_eq {names : List String} {fields : Table Json}
    (declared : (Table.keys fields).Sublist names) (unique : names.Nodup) :
    ofFields names fields = .ok ⟨fields⟩ := by
  have all : fields.filter (fun entry => entry.1 ∈ names) = fields :=
    List.filter_eq_self.mpr fun entry member =>
      decide_eq_true (declared.subset (List.mem_map_of_mem member))
  have selected : select names fields = .ok fields :=
    select_eq_ok.mpr ⟨all.symm, declared.nodup unique⟩
  rw [ofFields, selected]
  rfl

theorem ofJson_object {names : List String} {fields : Table Json}
    (declared : (Table.keys fields).Sublist names) (unique : names.Nodup) :
    Record.ofJson names (.object fields) = .ok ⟨fields⟩ := ofFields_eq declared unique

@[simp] theorem required_eq (r : Record α) (key : String) (read : α → Except Mismatch β) :
    r.required key read = (r.fields.get? key).elim (.error (.missing key)) read := by
  rw [required]
  cases r.fields.get? key with
  | none => rfl
  | some => rfl

@[simp] theorem orElse_eq (r : Record α) (key : String) (default : β)
    (read : α → Except Mismatch β) :
    r.orElse key default read = (r.fields.get? key).elim (.ok default) read := by
  rw [orElse]
  cases r.fields.get? key with
  | none => rfl
  | some => rfl

end Record

end ApiGraph
