import ApiGraph.Document.Format
import ApiGraph.Proofs.Effect.Meets
import ApiGraph.Proofs.Json.ReadBack
import ApiGraph.Proofs.Json.Unrepeated

/-! A document that was loaded has no key twice in one object, whatever its format
(`unrepeated_of_load`), and the indented text of such a document is loaded as the document
(`load_of_indented`). -/

namespace ApiGraph

open Json (Unrepeated)

namespace Json

/-- Comparing two values tells whether they are equal. -/
theorem same_iff {a b : Json} : same a b = true ↔ a = b := by
  induction a, b using same.induct
    (motive_2 := fun as bs => sameFields as bs = true ↔ as = bs)
    (motive_3 := fun as bs => sameItems as bs = true ↔ as = bs) with
  | case7 a b => cases a <;> cases b <;> simp_all [same]
  | case10 as bs _ different =>
    cases as with
    | nil => cases bs <;> simp_all [sameItems]
    | cons a as =>
      cases bs with
      | nil => simp [sameItems]
      | cons b bs => exact absurd rfl (different a as b bs rfl)
  | case13 as bs _ different =>
    cases as with
    | nil => cases bs <;> simp_all [sameFields]
    | cons a as =>
      cases bs with
      | nil => simp [sameFields]
      | cons b bs => exact absurd rfl (different a.1 a.2 as b.1 b.2 bs rfl)
  | _ => simp_all [same, sameItems, sameFields, and_assoc]

instance : DecidableEq Json := fun _ _ => decidable_of_iff _ same_iff

end Json

namespace Yaml

/-- A value that is no collection. -/
def IsScalar (j : Json) : Prop := j.items? = none ∧ j.fields? = none

theorem IsScalar.unrepeated {j : Json} (h : IsScalar j) : j.Unrepeated := by
  cases j with
  | null => exact .null
  | bool b => exact .bool b
  | number n => exact .number n
  | string s => exact .string s
  | array items => cases h.1
  | object fields => cases h.2

theorem isScalar_of_map {α : Type} {make : α → Json} (scalar : ∀ a, IsScalar (make a))
    {made : Option α} {j : Json} (h : made.map make = some j) : IsScalar j := by
  obtain ⟨a, _, rfl⟩ := Option.map_eq_some_iff.mp h
  exact scalar a

theorem isScalar_ofInteger? {n : Int} {j : Json} (h : ofInteger? n = some j) : IsScalar j := by
  rw [ofInteger?] at h
  split at h
  · cases h
    exact ⟨rfl, rfl⟩
  · cases h

theorem isScalar_float? {text : String} {j : Json} (h : float? text = some j) : IsScalar j := by
  have positive : ∀ cs, float?.positive? cs = some j → IsScalar j := by
    intro cs h
    rw [float?.positive?] at h
    split at h
    · cases h
      exact ⟨rfl, rfl⟩
    · exact isScalar_of_map (fun _ => ⟨rfl, rfl⟩) h
  rw [float?] at h
  split at h
  · cases h
    exact ⟨rfl, rfl⟩
  · split at h
    · exact positive _ h
    · split at h
      · cases h
        exact ⟨rfl, rfl⟩
      · exact isScalar_of_map (fun _ => ⟨rfl, rfl⟩) h
    · exact positive _ h

theorem isScalar_ofPlain? {text : String} {j : Json} (h : ofPlain? text = some j) :
    IsScalar j := by
  rw [ofPlain?] at h
  split at h
  · cases h
    exact ⟨rfl, rfl⟩
  · split at h
    · cases h
      exact ⟨rfl, rfl⟩
    · exact isScalar_ofInteger? h
    · split at h
      · cases h
        exact ⟨rfl, rfl⟩
      · cases number : float? text with
        | none =>
          rw [number] at h
          cases h
          exact ⟨rfl, rfl⟩
        | some k =>
          rw [number] at h
          cases h
          exact isScalar_float? number

theorem isScalar_ofScalar? {tag : Option Tag} {isPlain : Bool} {text : String} {j : Json}
    (h : ofScalar? tag isPlain text = some j) : IsScalar j := by
  unfold ofScalar? at h
  split at h
  · split at h
    · exact isScalar_ofPlain? h
    · cases h
      exact ⟨rfl, rfl⟩
  · split at h
    · cases h
    · split at h
      · exact isScalar_of_map (fun _ => ⟨rfl, rfl⟩) h
      · split at h
        · obtain ⟨n, _, h⟩ := Option.bind_eq_some_iff.mp h
          exact isScalar_ofInteger? h
        · split at h
          · exact isScalar_float? h
          · split at h
            · split at h
              · cases h
                exact ⟨rfl, rfl⟩
              · cases h
            · cases h
              exact ⟨rfl, rfl⟩

theorem run_bind {act : Valuing α} {next : α → Valuing β} {s : Nat} {out : β × Nat}
    (h : (act >>= next).run s = some out) :
    ∃ a t, act.run s = some (a, t) ∧ (next a).run t = some out := by
  rw [StateT.run_bind] at h
  obtain ⟨⟨a, t⟩, first, later⟩ := Option.bind_eq_some_iff.mp h
  exact ⟨a, t, first, later⟩

/-- What a pass over a list gives comes from its items. -/
theorem exists_of_mem_valuing {f : α → Valuing β} {as : List α} {bs : List β} {s s' : Nat}
    (h : (as.mapM f).run s = some (bs, s')) {b : β} (member : b ∈ bs) :
    ∃ a ∈ as, ∃ t t', (f a).run t = some (b, t') := by
  induction as generalizing s bs with
  | nil =>
    cases h
    cases member
  | cons a rest ih =>
    rw [List.mapM_cons] at h
    obtain ⟨first, t, here, h⟩ := run_bind h
    obtain ⟨others, u, later, h⟩ := run_bind h
    cases h
    rcases List.mem_cons.mp member with rfl | member
    · exact ⟨a, by simp, s, t, here⟩
    · obtain ⟨c, place, found⟩ := ih later member
      exact ⟨c, by simp [place], found⟩

/-- The value of a node is without repeated keys if the values inside it are. -/
theorem unrepeated_valueWith {numbered : List (Nat × Node)} {inner : Option (Node → Valuing Json)}
    (below : ∀ value ∈ inner, ∀ node s j s', (value node).run s = some (j, s') → j.Unrepeated)
    {node : Node} {s s' : Nat} {j : Json}
    (h : (valueWith numbered inner node).run s = some (j, s')) : j.Unrepeated := by
  rw [valueWith] at h
  obtain ⟨target, t, _, h⟩ := run_bind h
  split at h
  · generalize value : ofScalar? _ _ _ = scalar at h
    cases scalar with
    | none => cases h
    | some k =>
      cases h
      exact (isScalar_ofScalar? value).unrepeated
  · split at h
    · cases h
    · obtain ⟨items, u, each, h⟩ := run_bind h
      cases h
      apply Unrepeated.array
      intro j member
      obtain ⟨node, _, v, v', value⟩ := exists_of_mem_valuing each member
      exact below _ rfl node v j v' value
  · split at h
    · cases h
    · obtain ⟨fields, u, each, h⟩ := run_bind h
      cases h
      apply Unrepeated.object (Table.keys_ofList_nodup _)
      intro e member
      obtain ⟨⟨key, node⟩, _, v, v', entry⟩ :=
        exists_of_mem_valuing each (Table.mem_ofList member)
      obtain ⟨name, w, _, entry⟩ := run_bind entry
      obtain ⟨j, x, value, entry⟩ := run_bind entry
      cases entry
      exact below _ rfl node w _ _ value
  · cases h

theorem unrepeated_valueOf {numbered : List (Nat × Node)} {depth : Nat} {node : Node} {s s' : Nat}
    {j : Json} (h : (valueOf numbered depth node).run s = some (j, s')) : j.Unrepeated := by
  induction depth generalizing node s s' j with
  | zero => exact unrepeated_valueWith (by simp) h
  | succ depth ih =>
    apply unrepeated_valueWith _ h
    rintro value ⟨⟩ node s j s' h
    exact ih h

theorem unrepeated_ofText? {text : String} {j : Json} (h : ofText? text = some j) :
    j.Unrepeated := by
  obtain ⟨node, _, h⟩ := Option.bind_eq_some_iff.mp h
  obtain ⟨⟨value, left⟩, run, rfl⟩ := Option.map_eq_some_iff.mp h
  exact unrepeated_valueOf run

end Yaml

theorem Json.unrepeated_ofText? {text : String} {j : Json} (h : ofText? text = some j) :
    j.Unrepeated := by
  obtain ⟨read, _, rfl⟩ := Option.map_eq_some_iff.mp h
  exact unrepeated_settled read

theorem Format.unrepeated_of_read {format : Format} {path : Path} {text : String} {j : Json}
    (h : format.read path text = .ok j) : j.Unrepeated := by
  cases format with
  | json =>
    rw [Format.read] at h
    cases value : Json.ofText? text with
    | none =>
      rw [value] at h
      cases h
    | some k =>
      rw [value] at h
      cases h
      exact Json.unrepeated_ofText? value
  | yaml =>
    rw [Format.read] at h
    cases value : Yaml.ofText? text with
    | none =>
      rw [value] at h
      cases h
    | some k =>
      rw [value] at h
      cases h
      exact Yaml.unrepeated_ofText? value

namespace FileTree

theorem unrepeated_of_load {files : FileTree} {p : Path} {j : Json}
    (h : files.load p = .ok j) : j.Unrepeated := by
  obtain ⟨format, _, h⟩ := bind_eq_ok.mp h
  split at h
  · exact Format.unrepeated_of_read h
  · cases h

/-- A file with the indented text of a document is loaded as the document. -/
theorem load_of_indented {files : FileTree} {p : Path} (location : Location) {j : Json}
    (format : Format.ofPath p = .ok .json) (place : files.locate p = .ok location)
    (stands : files.entry? location = some (.file j.indented))
    (plain : Json.Plain Json.Reader.depthLimit j) (settled : j.settled = j) :
    files.load p = .ok j := by
  have text : files.read p = .ok j.indented := by
    rw [FileTree.read, place, ok_bind, stands]
  have value : Json.ofText? j.indented = some j := by
    rw [Json.ofText?, plain.entriesOfText?.1, Option.map_some, settled]
  rw [load, format, ok_bind, text]
  simp only [Format.read, value]
  rfl

end FileTree

end ApiGraph
