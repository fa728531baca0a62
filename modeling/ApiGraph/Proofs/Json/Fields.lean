import ApiGraph.Proofs.Json.Amended
import ApiGraph.Proofs.Table.Parts

/-! Where the fields of a record stand. A record is written as an object or as the list of its
fields, and the value of a field stands under its name or at its place (`Field`). If the value is
changed, the record that is read has the field changed and the others as they were
(`exists_amended`); lists and tables are read as before but for what is changed in them. -/

namespace ApiGraph

open Json (amendPath)

namespace Table

variable {α : Type}

/-- Of the entries of a table at most one is changed. -/
theorem forall₂_amend (t : Table α) (name : String) (change : α → α) :
    List.Forall₂ (fun entry entry' => entry'.1 = entry.1 ∧ (entry'.2 = entry.2 ∨
      entry.1 = name ∧ get? t name = some entry.2 ∧ entry'.2 = change entry.2))
      t (amend t name change) := by
  rw [amend]
  cases found : get? t name with
  | none => exact List.forall₂_same.mpr fun entry _ => ⟨rfl, Or.inl rfl⟩
  | some value =>
    induction t with
    | nil => cases found
    | cons entry rest ih =>
      obtain ⟨other, old⟩ := entry
      simp only
      rw [insert]
      split
      · rename_i same
        subst same
        rw [get?_cons_self] at found
        refine .cons ⟨rfl, Or.inr ⟨rfl, found.symm ▸ rfl, ?_⟩⟩ ?_
        · rw [Option.some.inj found]
        · exact List.forall₂_same.mpr fun entry _ => ⟨rfl, Or.inl rfl⟩
      · rename_i differs
        rw [get?_cons_ne differs] at found
        exact .cons ⟨rfl, Or.inl rfl⟩ (ih found)

theorem get?_zip {names : List String} (unique : names.Nodup) {i : Nat} {name : String}
    (named : names[i]? = some name) (items : List α) :
    get? (names.zip items) name = items[i]? := by
  induction names generalizing items i with
  | nil => simp at named
  | cons first rest ih =>
    obtain ⟨single, later⟩ := List.nodup_cons.mp unique
    cases items with
    | nil => rfl
    | cons item items =>
      rw [List.zip_cons_cons, get?_cons]
      cases i with
      | zero =>
        obtain rfl : first = name := by simpa using named
        simp
      | succ i =>
        rw [List.getElem?_cons_succ] at named
        have differs : first ≠ name := by
          rintro rfl
          exact single (List.mem_of_getElem? named)
        rw [if_neg differs, ih later named, List.getElem?_cons_succ]

theorem get?_zip_modify {names : List String} (unique : names.Nodup) {i : Nat} {name : String}
    (named : names[i]? = some name) (items : List α) (change : α → α) (key : String) :
    get? (names.zip (items.modify i change)) key =
      if name = key then (get? (names.zip items) key).map change
      else get? (names.zip items) key := by
  by_cases listed : key ∈ names
  · obtain ⟨k, place⟩ := List.mem_iff_getElem?.mp listed
    rw [get?_zip unique place, get?_zip unique place, List.getElem?_modify]
    by_cases same : name = key
    · subst same
      have : i = k := by
        have inBounds := (List.getElem?_eq_some_iff.mp named).1
        exact (List.getElem?_inj inBounds unique).mp (named.trans place.symm)
      simp [this]
    · have differs : i ≠ k := by
        rintro rfl
        exact same (Option.some.inj (named.symm.trans place))
      simp [differs, same]
  · have absent : ∀ items : List α, get? (names.zip items) key = none := by
      intro items
      refine get?_eq_none_iff.mpr fun member => listed ?_
      obtain ⟨entry, there, rfl⟩ := List.mem_map.mp member
      exact (List.of_mem_zip (a := entry.1) (b := entry.2) there).1
    rw [absent, absent]
    simp

end Table

namespace Record

/-- A value that stands for a field, and the key that leads to it. -/
inductive Field (names : List String) (name : String) : Json → String → Json → Prop
  | entry {fields : Table Json} {value : Json} (isField : name ∈ names)
    (found : Table.get? fields name = some value) : Field names name (.object fields) name value
  | item {items : List Json} {key : String} {i : Nat} {value : Json}
    (index : Json.Pointer.index? key.toList = some i) (named : names[i]? = some name)
    (found : items[i]? = some value) : Field names name (.array items) key value

variable {names : List String} {name key : String} {j value : Json} {r : Record Json}

theorem ofFields_eq_ok {fields : Table Json} : ofFields names fields = .ok r ↔
    r.fields = fields.filter (fun entry => entry.1 ∈ names) ∧ (Table.keys r.fields).Nodup := by
  rw [ofFields, map_eq_ok]
  constructor
  · rintro ⟨found, selected, rfl⟩
    exact select_eq_ok.mp selected
  · exact fun h => ⟨r.fields, select_eq_ok.mpr h, rfl⟩

theorem get?_ofFields {fields : Table Json} (read : ofFields names fields = .ok r)
    (other : String) :
    r.fields.get? other = if other ∈ names then Table.get? fields other else none := by
  have law := Table.get?_filter (fun name => decide (name ∈ names)) fields other
  rw [(ofFields_eq_ok.mp read).1]
  simpa using law

/-- The value that stands for a field. -/
def value? (names : List String) (name : String) : Json → Option Json
  | .object fields => Table.get? fields name
  | .array items => Table.get? (names.zip items) name
  | _ => none

theorem get?_ofJson (read : ofJson names j = .ok r) (isField : name ∈ names) :
    r.fields.get? name = value? names name j := by
  cases j with
  | object fields => rw [get?_ofFields read, if_pos isField, value?]
  | array items =>
    rw [ofJson, ofItems] at read
    split at read
    · obtain rfl := Except.ok.inj read
      rfl
    · cases read
  | _ => cases read

/-- What stands in a record stands in the value that it was read from. -/
theorem mem_children_of_ofJson (read : ofJson names j = .ok r) {entry : String × Json}
    (member : entry ∈ r.fields) : entry.2 ∈ j.children := by
  cases j with
  | object fields =>
    rw [(ofFields_eq_ok.mp read).1] at member
    exact List.mem_map_of_mem (List.mem_of_mem_filter member)
  | array items =>
    rw [ofJson, ofItems] at read
    split at read
    · obtain rfl := Except.ok.inj read
      exact (List.of_mem_zip (a := entry.1) (b := entry.2) member).2
    · cases read
  | _ => cases read

/-- The record that is read of a changed object. -/
theorem exists_ofFields_amend {fields : Table Json} (isField : name ∈ names)
    (read : ofFields names fields = .ok r) (change : Json → Json) :
    ∃ r', ofFields names (Table.amend fields name change) = .ok r' ∧ ∀ other,
      r'.fields.get? other =
        if name = other then (r.fields.get? other).map change else r.fields.get? other := by
  obtain ⟨selected, unique⟩ := ofFields_eq_ok.mp read
  have keys : ∀ t : Table Json, Table.keys (t.filter fun entry => entry.1 ∈ names) =
      (Table.keys t).filter fun key => key ∈ names :=
    Table.keys_filter fun name => decide (name ∈ names)
  have read' : ofFields names (Table.amend fields name change) =
      .ok ⟨(Table.amend fields name change).filter fun entry => entry.1 ∈ names⟩ := by
    refine ofFields_eq_ok.mpr ⟨rfl, ?_⟩
    rw [selected, keys] at unique
    rw [keys, Table.keys_amend]
    exact unique
  refine ⟨_, read', fun other => ?_⟩
  rw [get?_ofFields read', get?_ofFields read, Table.get?_amend]
  by_cases same : name = other
  · subst same
    simp [isField]
  · simp [same]

theorem Field.get? (unique : names.Nodup) (field : Field names name j key value)
    (read : ofJson names j = .ok r) : r.fields.get? name = some value := by
  cases field with
  | entry isField found => rw [get?_ofFields read, if_pos isField, found]
  | item index named found =>
    rw [ofJson, ofItems] at read
    split at read
    · obtain rfl := Except.ok.inj read
      exact (Table.get?_zip unique named _).trans found
    · cases read

theorem Field.unrepeated (field : Field names name j key value) (h : j.Unrepeated) :
    value.Unrepeated := by
  cases field with
  | entry _ found => exact h.get? found
  | item _ _ found =>
    cases h with
    | array each => exact each value (List.mem_of_getElem? found)

/-- The record that is read when the value of a field is changed. -/
theorem Field.exists_amended (unique : names.Nodup) (field : Field names name j key value)
    (read : ofJson names j = .ok r) (change : Json → Json) (rest : List String) :
    ∃ r', ofJson names (amendPath change (key :: rest) j) = .ok r' ∧ ∀ other,
      r'.fields.get? other =
        if name = other then some (amendPath change rest value) else r.fields.get? other := by
  have whole := field.get? unique read
  suffices amended : ∃ r', ofJson names (amendPath change (key :: rest) j) = .ok r' ∧ ∀ other,
      r'.fields.get? other = if name = other then
        (r.fields.get? other).map (amendPath change rest) else r.fields.get? other by
    obtain ⟨r', read', law⟩ := amended
    refine ⟨r', read', fun other => ?_⟩
    rw [law]
    by_cases same : name = other
    · subst same
      rw [if_pos rfl, if_pos rfl, whole, Option.map_some]
    · rw [if_neg same, if_neg same]
  cases field with
  | entry isField found => exact exists_ofFields_amend isField read _
  | @item items key i value index named found =>
    simp only [amendPath, index]
    rw [ofJson, ofItems] at read ⊢
    split at read
    · rename_i fits
      obtain rfl := Except.ok.inj read
      rw [List.length_modify, if_pos fits]
      exact ⟨_, rfl, Table.get?_zip_modify unique named items _⟩
    · cases read

end Record

theorem Json.orNull_eq_ok {α : Type} {read : Json → Except Mismatch α} {j : Json}
    {value : Option α} (h : orNull read j = .ok value) :
    j = .null ∧ value = none ∨ ∃ a, read j = .ok a ∧ value = some a := by
  unfold orNull at h
  split at h
  · exact Or.inl ⟨rfl, (Except.ok.inj h).symm⟩
  · obtain ⟨a, isRead, same⟩ := map_eq_ok.mp h
    exact Or.inr ⟨a, isRead, same.symm⟩

/-! Lists and tables. -/

section

variable {ε α β : Type}

theorem getElem?_of_mapM {f : α → Except ε β} {as : List α} {bs : List β}
    (h : as.mapM f = .ok bs) {i : Nat} {a : α} (found : as[i]? = some a) :
    ∃ b, bs[i]? = some b ∧ f a = .ok b := by
  induction as generalizing bs i with
  | nil => simp at found
  | cons first rest ih =>
    obtain ⟨b, others, isFirst, later, rfl⟩ := mapM_cons_eq_ok.mp h
    cases i with
    | zero =>
      obtain rfl : first = a := by simpa using found
      exact ⟨b, rfl, isFirst⟩
    | succ i => exact ih later (by simpa using found)

theorem mapM_modify {f : α → Except ε β} {as : List α} {bs : List β} (h : as.mapM f = .ok bs)
    {i : Nat} {a : α} (found : as[i]? = some a) {change : α → α} {b : β}
    (changed : f (change a) = .ok b) : (as.modify i change).mapM f = .ok (bs.set i b) := by
  induction as generalizing bs i with
  | nil => simp at found
  | cons first rest ih =>
    obtain ⟨old, others, isFirst, later, rfl⟩ := mapM_cons_eq_ok.mp h
    cases i with
    | zero =>
      obtain rfl : first = a := by simpa using found
      exact mapM_cons_eq_ok.mpr ⟨b, others, changed, later, rfl⟩
    | succ i =>
      exact mapM_cons_eq_ok.mpr ⟨old, _, isFirst, ih later (by simpa using found), rfl⟩

theorem forall₂_set {related : α → α → Prop} {as : List α} {i : Nat} {a b : α}
    (same : ∀ a ∈ as, related a a) (there : as[i]? = some a) (changed : related a b) :
    List.Forall₂ related as (as.set i b) := by
  induction as generalizing i with
  | nil => exact .nil
  | cons first rest ih =>
    cases i with
    | zero =>
      obtain rfl : first = a := by simpa using there
      exact .cons changed (List.forall₂_same.mpr fun a member => same a (by simp [member]))
    | succ i =>
      refine .cons (same first (by simp)) (ih (fun a member => same a (by simp [member])) ?_)
      simpa using there

end

namespace Json

variable {α : Type} {read : Json → Except Mismatch α} {fields : Table Json} {t entries : Table α}
  {key : String} {value : Json} {a : α}

theorem toEntries_insert (h : toEntries read fields = .ok entries) (isRead : read value = .ok a) :
    toEntries read (Table.insert fields key value) = .ok (Table.insert entries key a) := by
  induction fields generalizing entries with
  | nil =>
    cases h
    rw [Table.insert, toEntries, isRead]
    rfl
  | cons entry rest ih =>
    obtain ⟨name, old⟩ := entry
    obtain ⟨b, isFirst, h⟩ := bind_eq_ok.mp h
    obtain ⟨others, later, h⟩ := bind_eq_ok.mp h
    cases h
    rw [Table.insert, Table.insert]
    split
    · rw [toEntries, isRead, ok_bind, later]
      rfl
    · rw [toEntries, isFirst, ok_bind, ih later]
      rfl

theorem get?_toEntries (h : toEntries read fields = .ok entries)
    (found : Table.get? fields key = some value) :
    ∃ a, read value = .ok a ∧ Table.get? entries key = some a := by
  induction fields generalizing entries with
  | nil => cases found
  | cons entry rest ih =>
    obtain ⟨name, old⟩ := entry
    obtain ⟨b, isFirst, h⟩ := bind_eq_ok.mp h
    obtain ⟨others, later, h⟩ := bind_eq_ok.mp h
    cases h
    rw [Table.get?_cons] at found ⊢
    by_cases same : name = key
    · rw [if_pos same] at found ⊢
      obtain rfl := Option.some.inj found
      exact ⟨b, isFirst, rfl⟩
    · rw [if_neg same] at found ⊢
      exact ih later found

theorem keys_toEntries (h : toEntries read fields = .ok entries) :
    Table.keys entries = Table.keys fields := by
  induction fields generalizing entries with
  | nil =>
    cases h
    rfl
  | cons entry rest ih =>
    obtain ⟨name, old⟩ := entry
    obtain ⟨b, _, h⟩ := bind_eq_ok.mp h
    obtain ⟨others, later, h⟩ := bind_eq_ok.mp h
    cases h
    simp only [Table.keys, List.map_cons] at ih ⊢
    rw [ih later]

section

variable (unique : (Table.keys fields).Nodup) (h : toTable read (.object fields) = .ok t)
include unique h

theorem get?_toTable (found : Table.get? fields key = some value) :
    ∃ a, read value = .ok a ∧ Table.get? t key = some a := by
  obtain ⟨entries, areRead, rfl⟩ := map_eq_ok.mp h
  rw [← keys_toEntries areRead] at unique
  obtain ⟨a, isRead, there⟩ := get?_toEntries areRead found
  exact ⟨a, isRead, by rw [Table.get?_ofList, Table.get?_reverse unique, there]⟩

theorem toTable_insert (isRead : read value = .ok a) :
    ∃ t', toTable read (.object (Table.insert fields key value)) = .ok t' ∧
      ∀ other, Table.get? t' other = if key = other then some a else Table.get? t other := by
  obtain ⟨entries, areRead, rfl⟩ := map_eq_ok.mp h
  rw [← keys_toEntries areRead] at unique
  have unique' := Table.keys_insert_nodup unique key a
  refine ⟨_, map_eq_ok.mpr ⟨_, toEntries_insert areRead isRead, rfl⟩, fun other => ?_⟩
  rw [Table.get?_ofList, Table.get?_reverse unique', Table.get?_insert, Table.get?_ofList,
    Table.get?_reverse unique]

end

end Json

end ApiGraph
