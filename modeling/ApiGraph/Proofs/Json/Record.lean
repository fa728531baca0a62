import ApiGraph.Json.Record
import ApiGraph.Proofs.Effect.Meets
import ApiGraph.Proofs.Table.Order

/-! What records are read from. An object is read as a record exactly if no field stands in it
twice, and the record holds its entries under the names of fields. Neither the order of the entries
nor what else is in the object counts (`ofJson_resembles`). What a field, a list or a table holds
was read from a value of the record. -/

namespace ApiGraph

/-- The second run gives what the first one gives, if that ends well. -/
def Gives {ε α : Type} (first second : Except ε α) : Prop := ∀ a, first = .ok a → second = .ok a

namespace Gives

variable {ε α β : Type}

theorem refl (run : Except ε α) : Gives run run := fun _ => id

theorem bind {first second : Except ε α} {next next' : α → Except ε β}
    (h : Gives first second) (later : ∀ a, Gives (next a) (next' a)) :
    Gives (first >>= next) (second >>= next') := by
  intro b ends
  obtain ⟨a, isFirst, ends⟩ := bind_eq_ok.mp ends
  rw [h a isFirst, ok_bind]
  exact later a b ends

theorem mapError {δ : Type} {first second : Except ε α} (h : Gives first second) (f : ε → δ) :
    Gives (first.mapError f) (second.mapError f) := by
  intro a ends
  cases run : first with
  | error fault =>
    rw [run] at ends
    cases ends
  | ok b =>
    rw [run] at ends
    rw [h b run]
    exact ends

/-- Item by item. -/
theorem mapM {γ : Type} {run : α → Except ε γ} {run' : β → Except ε γ} {as : List α} {bs : List β}
    (each : List.Forall₂ (fun a b => Gives (run a) (run' b)) as bs) :
    Gives (as.mapM run) (bs.mapM run') := by
  induction each with
  | nil => exact refl _
  | cons first _ ih =>
    rw [List.mapM_cons, List.mapM_cons]
    exact first.bind fun _ => ih.bind fun _ => refl _

end Gives

namespace Record

variable {α β : Type}

theorem select_eq_ok {names : List String} {fields found : Table α} :
    select names fields = .ok found ↔
      found = fields.filter (fun entry => entry.1 ∈ names) ∧ (Table.keys found).Nodup := by
  induction fields generalizing found with
  | nil =>
    rw [select]
    constructor
    · rintro ⟨⟩
      exact ⟨rfl, List.nodup_nil⟩
    · rintro ⟨rfl, _⟩
      rfl
  | cons entry rest ih =>
    obtain ⟨key, value⟩ := entry
    rw [select, bind_eq_ok]
    by_cases isField : key ∈ names
    · simp only [isField, ↓reduceIte, List.filter_cons, decide_true]
      constructor
      · rintro ⟨later, selected, h⟩
        obtain ⟨rfl, unique⟩ := ih.mp selected
        split at h
        · cases h
        · rename_i absent
          cases h
          refine ⟨rfl, List.nodup_cons.mpr ⟨?_, unique⟩⟩
          exact fun member => absent (Table.contains_iff.mpr member)
      · rintro ⟨rfl, unique⟩
        obtain ⟨absent, unique⟩ := List.nodup_cons.mp unique
        refine ⟨_, ih.mpr ⟨rfl, unique⟩, ?_⟩
        rw [if_neg fun there => absent (Table.contains_iff.mp there)]
    · simp only [isField, ↓reduceIte, List.filter_cons, decide_false, Bool.false_eq_true]
      constructor
      · rintro ⟨later, selected, h⟩
        cases h
        exact ih.mp selected
      · exact fun selected => ⟨found, ih.mpr selected, rfl⟩

theorem select_filter (names : List String) (fields : Table α) :
    select names (fields.filter fun entry => entry.1 ∈ names) = select names fields := by
  induction fields with
  | nil => rfl
  | cons entry rest ih =>
    obtain ⟨key, value⟩ := entry
    by_cases isField : key ∈ names
    · simp [isField, select, ih]
    · simp only [List.filter_cons, isField, decide_false, Bool.false_eq_true, ↓reduceIte, select,
        ih]
      cases select names rest <;> rfl

/-- Only the entries with the name of a field count. -/
theorem ofFields_congr {names : List String} {fields fields' : Table α}
    (same : fields'.filter (fun entry => entry.1 ∈ names) =
      fields.filter fun entry => entry.1 ∈ names) :
    ofFields names fields' = ofFields names fields := by
  rw [ofFields, ofFields, ← select_filter names fields', same, select_filter]

theorem ofFields_perm {names : List String} {fields fields' : Table α} {r : Record α}
    (same : (fields.filter fun entry => entry.1 ∈ names).Perm
      (fields'.filter fun entry => entry.1 ∈ names))
    (read : ofFields names fields = .ok r) :
    ∃ r', ofFields names fields' = .ok r' ∧
      ∀ key, r'.fields.get? key = r.fields.get? key := by
  rw [ofFields] at read
  cases selected : select names fields with
  | error fault =>
    rw [selected] at read
    cases read
  | ok found =>
    rw [selected] at read
    cases read
    obtain ⟨rfl, unique⟩ := select_eq_ok.mp selected
    have unique' := (same.map Prod.fst).nodup_iff.mp unique
    have selected' := select_eq_ok.mpr ⟨rfl, unique'⟩
    refine ⟨_, by rw [ofFields, selected']; rfl, ?_⟩
    exact fun key => (Table.get?_eq_of_perm unique same key).symm

/-- Objects that are the same but for the order of their entries and for those under a name that is
no field. -/
inductive Resembles (fields : List String) : Json → Json → Prop
  | same (j : Json) : Resembles fields j j
  | object {entries entries' : Table Json}
    (same : (entries.filter fun entry => entry.1 ∈ fields).Perm
      (entries'.filter fun entry => entry.1 ∈ fields))
    (held : ∀ key ∈ fields, Table.get? entries' key = Table.get? entries key) :
    Resembles fields (.object entries) (.object entries')

theorem Resembles.get? {names : List String} {j j' : Json} (h : Resembles names j j')
    {key : String} (isField : key ∈ names) : j'.get? key = j.get? key := by
  cases h with
  | same => rfl
  | object _ held => exact held key isField

theorem Resembles.symm {names : List String} {j j' : Json} (h : Resembles names j j') :
    Resembles names j' j := by
  cases h with
  | same => exact .same j
  | object same held => exact .object same.symm fun key isField => (held key isField).symm

/-! What is found in two documents, if anything is. -/

section

variable {names : List String} {found found' : Option Json}

theorem Resembles.rel_refl (names : List String) (found : Option Json) :
    Option.Rel (Resembles names) found found := by
  cases found with
  | none => exact .none
  | some j => exact .some (.same j)

theorem Resembles.rel_symm (h : Option.Rel (Resembles names) found found') :
    Option.Rel (Resembles names) found' found := by
  cases h with
  | none => exact .none
  | some resembles => exact .some resembles.symm

theorem Resembles.exists_of_rel (h : Option.Rel (Resembles names) found found') {j : Json}
    (there : found = some j) : ∃ j', found' = some j' ∧ Resembles names j j' := by
  subst there
  cases h with
  | some resembles => exact ⟨_, rfl, resembles⟩

end

theorem ofJson_resembles {names : List String} {j j' : Json} (h : Resembles names j j')
    {r : Record Json} (read : ofJson names j = .ok r) :
    ∃ r', ofJson names j' = .ok r' ∧ ∀ key, r'.fields.get? key = r.fields.get? key := by
  cases h with
  | same => exact ⟨r, read, fun _ => rfl⟩
  | object same _ => exact ofFields_perm same read

theorem orElse_congr {r r' : Record α} {key : String}
    (same : r'.fields.get? key = r.fields.get? key) (default : β)
    (read : α → Except Mismatch β) : r'.orElse key default read = r.orElse key default read := by
  rw [orElse, orElse, same]

/-! Fields that were read. -/

theorem required_eq_ok {r : Record α} {key : String} {read : α → Except Mismatch β} {b : β}
    (h : r.required key read = .ok b) : ∃ a, read a = .ok b := by
  rw [required] at h
  split at h
  · exact ⟨_, h⟩
  · cases h

theorem orElse_eq_ok {r : Record α} {key : String} {default : β}
    {read : α → Except Mismatch β} {b : β} (h : r.orElse key default read = .ok b) :
    b = default ∨ ∃ a, r.fields.get? key = some a ∧ read a = .ok b := by
  rw [orElse] at h
  split at h
  · rename_i found
    exact Or.inr ⟨_, found, h⟩
  · exact Or.inl (Except.ok.inj h).symm

/-! Records with other values. -/

section

variable {γ : Type} {names : List String}

/-- The record with every value replaced. -/
def map (f : α → β) (r : Record α) : Record β where
  fields := List.map (fun entry => (entry.1, f entry.2)) r.fields

theorem orElse_map (f : α → β) (r : Record α) (key : String) (default : γ)
    (read : β → Except Mismatch γ) :
    (r.map f).orElse key default read = r.orElse key default fun a => read (f a) := by
  have law : (r.map f).fields.get? key = (r.fields.get? key).map f :=
    Table.get?_map (fun _ => f) r.fields key
  rw [orElse, orElse, law]
  cases r.fields.get? key <;> rfl

theorem select_map (f : α → β) (fields : Table α) :
    select names (List.map (fun entry => (entry.1, f entry.2)) fields) =
      (select names fields).map (List.map fun entry => (entry.1, f entry.2)) := by
  induction fields with
  | nil => rfl
  | cons entry rest ih =>
    obtain ⟨key, value⟩ := entry
    rw [List.map_cons, select, select, ih]
    cases select names rest with
    | error fault => rfl
    | ok found =>
      have there : Table.contains (found.map fun entry => (entry.1, f entry.2)) key =
          Table.contains found key := by
        have law := Table.get?_map (fun _ => f) found key
        rw [Table.contains, law, Option.isSome_map, Table.contains]
      simp only [Except.map, ok_bind, there]
      split
      · split <;> rfl
      · rfl

theorem ofFields_map (f : α → β) (fields : Table α) :
    ofFields names (List.map (fun entry => (entry.1, f entry.2)) fields) =
      (ofFields names fields).map (map f) := by
  rw [ofFields, select_map, ofFields]
  cases select names fields <;> rfl

theorem ofItems_map (f : α → β) (items : List α) :
    ofItems names (items.map f) = (ofItems names items).map (map f) := by
  rw [ofItems, ofItems, List.length_map]
  split
  · rw [List.zip_map_right]
    rfl
  · rfl

end

end Record

namespace Json

variable {α : Type}

/-- A value that is there was read from somewhere. -/
theorem exists_of_orNull {r : Record Json} {key : String} {read : Json → Except Mismatch α}
    {value : Option α} (h : r.orElse key none (orNull read) = .ok value) :
    ∀ a ∈ value, ∃ j, r.fields.get? key = some j ∧ read j = .ok a := by
  rintro a ⟨⟩
  rcases Record.orElse_eq_ok h with none | ⟨j, found, h⟩
  · cases none
  unfold orNull at h
  split at h
  · cases h
  · obtain ⟨b, read, same⟩ := map_eq_ok.mp h
    obtain rfl := Option.some.inj same
    exact ⟨j, found, read⟩

theorem lt_of_toNatBelow {limit n : Nat} {j : Json} (h : toNatBelow limit j = .ok n) :
    n < limit := by
  unfold toNatBelow at h
  split at h
  · split at h
    · cases h
      assumption
    · cases h
  · cases h

theorem exists_of_toList {read : Json → Except Mismatch α} {j : Json} {as : List α}
    (h : toList read j = .ok as) : ∀ a ∈ as, ∃ k ∈ j.children, read k = .ok a := by
  unfold toList at h
  split at h
  · exact fun a => (mem_of_mapM h a).mp
  · cases h

theorem exists_of_toEntries {read : Json → Except Mismatch α} {fields : List (String × Json)}
    {entries : Table α} (h : toEntries read fields = .ok entries) :
    ∀ entry ∈ entries, ∃ k ∈ (Json.object fields).children, read k = .ok entry.2 := by
  induction fields generalizing entries with
  | nil =>
    cases h
    exact nofun
  | cons field rest ih =>
    obtain ⟨key, j⟩ := field
    rw [toEntries] at h
    obtain ⟨a, first, h⟩ := bind_eq_ok.mp h
    obtain ⟨others, later, h⟩ := bind_eq_ok.mp h
    cases h
    intro entry member
    rcases List.mem_cons.mp member with rfl | member
    · exact ⟨j, List.mem_cons_self, first⟩
    · obtain ⟨k, there, isRead⟩ := ih later entry member
      exact ⟨k, List.mem_cons_of_mem _ there, isRead⟩

theorem exists_of_toTable {read : Json → Except Mismatch α} {j : Json} {t : Table α}
    (h : toTable read j = .ok t) : ∀ entry ∈ t, ∃ k ∈ j.children, read k = .ok entry.2 := by
  unfold toTable at h
  split at h
  · obtain ⟨entries, each, rfl⟩ := map_eq_ok.mp h
    exact fun entry member => exists_of_toEntries each entry (Table.mem_ofList member)
  · cases h

theorem nodup_of_toTable {read : Json → Except Mismatch α} {j : Json} {t : Table α}
    (h : toTable read j = .ok t) : t.keys.Nodup := by
  unfold toTable at h
  split at h
  · obtain ⟨entries, _, rfl⟩ := map_eq_ok.mp h
    exact Table.keys_ofList_nodup entries
  · cases h

/-- What holds of every value that is read holds of those in a table. -/
theorem forall_of_toTable {read : Json → Except Mismatch α} {holds : α → Prop}
    (each : ∀ j a, read j = .ok a → holds a) {j : Json} {t : Table α}
    (h : toTable read j = .ok t) : ∀ entry ∈ t, holds entry.2 := by
  intro entry member
  obtain ⟨k, _, isRead⟩ := exists_of_toTable h entry member
  exact each k entry.2 isRead

end Json

end ApiGraph
