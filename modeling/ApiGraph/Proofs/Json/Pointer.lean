import ApiGraph.Json.Pointer
import ApiGraph.Proofs.Table.Lookup
import ApiGraph.Proofs.Text.Trim

/-! JSON pointers. An escaped key holds no slash and reads back as the key, so the pointer made of
escaped keys leads through exactly these keys. -/

namespace ApiGraph.Json.Pointer

theorem unescape_cons {c : Char} (h : c ≠ '~') (cs : List Char) :
    unescape (c :: cs) = c :: unescape cs := by
  rw [unescape]
  · rintro rest rfl rfl
    exact h rfl
  · rintro rest rfl rfl
    exact h rfl

theorem escape_cons {c : Char} (tilde : c ≠ '~') (slash : c ≠ '/') (cs : List Char) :
    escape (c :: cs) = c :: escape cs := by
  rw [escape]
  · exact fun h => tilde h
  · exact fun h => slash h

theorem unescape_escape (key : List Char) : unescape (escape key) = key := by
  induction key with
  | nil => rfl
  | cons c cs ih =>
    by_cases tilde : c = '~'
    · subst c
      simp [escape, unescape, ih]
    · by_cases slash : c = '/'
      · subst c
        simp [escape, unescape, ih]
      · rw [escape_cons tilde slash, unescape_cons tilde, ih]

theorem slash_not_mem_escape (key : List Char) : '/' ∉ escape key := by
  induction key with
  | nil => simp [escape]
  | cons c cs ih =>
    by_cases tilde : c = '~'
    · subst c
      simp [escape, ih]
    · by_cases slash : c = '/'
      · subst c
        simp [escape, ih]
      · rw [escape_cons tilde slash]
        simp [ih, Ne.symm slash]

theorem unescape_eq_nil {cs : List Char} : unescape cs = [] ↔ cs = [] := by
  fun_cases unescape cs <;> simp_all

/-- A key ends in white space exactly if the segment that stands for it does. -/
theorem getLast?_unescape_blank (segment : List Char) :
    (∀ c ∈ (unescape segment).getLast?, Text.isBlank c = false) ↔
      ∀ c ∈ segment.getLast?, Text.isBlank c = false := by
  have behind {d : Char} (clean : Text.isBlank d = false) (cs : List Char) :
      (∀ c ∈ (d :: cs).getLast?, Text.isBlank c = false) ↔
        ∀ c ∈ cs.getLast?, Text.isBlank c = false := by
    cases cs with
    | nil => simpa using clean
    | cons e rest => rw [List.getLast?_cons_cons]
  fun_induction unescape segment with
  | case1 => rfl
  | case2 rest ih | case3 rest ih =>
    rw [behind (by decide), behind (by decide), behind (by decide)]
    exact ih
  | case4 c rest _ _ ih =>
    cases rest with
    | nil => simp [unescape]
    | cons d tail =>
      cases key : unescape (d :: tail) with
      | nil => simp [unescape_eq_nil] at key
      | cons e keys =>
        rw [List.getLast?_cons_cons, List.getLast?_cons_cons, ← key]
        exact ih

/-- An escaped key ends in white space exactly if the key does. -/
theorem getLast?_escape_blank (key : List Char) :
    (∀ c ∈ (escape key).getLast?, Text.isBlank c = false) ↔
      ∀ c ∈ key.getLast?, Text.isBlank c = false := by
  rw [← getLast?_unescape_blank, unescape_escape]

/-- The key that a segment stands for. -/
def keyOf (segment : List Char) : String := String.ofList (unescape segment)

theorem keyOf_escape (key : String) : keyOf (escape key.toList) = key := by
  rw [keyOf, unescape_escape, String.ofList_toList]

theorem keyOf_eq_iff {a b : List Char} : keyOf a = keyOf b ↔ unescape a = unescape b := by
  rw [keyOf, keyOf, String.ofList_inj]

end Pointer

/-- What a pointer made of segments leads to. -/
def follow (j : Json) (segments : List (List Char)) : Option Json :=
  segments.foldlM Pointer.step j

@[simp] theorem follow_nil (j : Json) : j.follow [] = some j := rfl

theorem follow_cons (j : Json) (segment : List Char) (rest : List (List Char)) :
    j.follow (segment :: rest) = (Pointer.step j segment).bind (·.follow rest) := rfl

theorem follow_append (j : Json) (front back : List (List Char)) :
    j.follow (front ++ back) = (j.follow front).bind (·.follow back) := List.foldlM_append

theorem pointer?_slash (j : Json) (rest : List Char) :
    j.pointer? ('/' :: rest) = j.follow (Text.split '/' rest) := rfl

theorem step_object (fields : List (String × Json)) (segment : List Char) :
    Pointer.step (.object fields) segment =
      Table.get? fields (String.ofList (Pointer.unescape segment)) := rfl

/-- Only the keys of a way count. -/
theorem follow_congr {a b : List (List Char)} (same : a.map Pointer.keyOf = b.map Pointer.keyOf)
    (j : Json) : j.follow a = j.follow b := by
  induction a generalizing b j with
  | nil =>
    rw [List.map_nil, eq_comm, List.map_eq_nil_iff] at same
    rw [same]
  | cons first rest ih =>
    cases b with
    | nil => cases same
    | cons first' rest' =>
      obtain ⟨key, same⟩ := List.cons.inj same
      have step : Pointer.step j first = Pointer.step j first' := by
        simp only [Pointer.step, Pointer.keyOf_eq_iff.mp key]
      rw [follow_cons, follow_cons, step]
      exact Option.bind_congr fun j' _ => ih same j'

/-- The segments on the way to a definition. -/
def definitionSegments (name : String) : List (List Char) :=
  ["components".toList, "schemas".toList, Pointer.escape name.toList]

end ApiGraph.Json
