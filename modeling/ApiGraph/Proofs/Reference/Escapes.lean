import ApiGraph.Proofs.Reference.Text

/-! Escaping a definition's name loses nothing. Escaping and unescaping are each two replacements,
one after the other through the whole text, and what the first one puts in may look like something
for the second. Both come to one pass over the text (`escape_eq_replaceAll`,
`unescape_eq_replaceAll`). So a name is read back from its reference, and a pointer reads the same
name as `definitionName?` does (`definition_references_exact`). -/

namespace ApiGraph.Text

/-- As `replaceAll`, when so many characters of an occurrence are still to be passed over. -/
def replaceFrom (pattern replacement : List Char) : Nat → List Char → List Char
  | _, [] => []
  | skip + 1, _ :: rest => replaceFrom pattern replacement skip rest
  | 0, c :: rest =>
    if startsWith pattern (c :: rest) then
      replacement ++ replaceFrom pattern replacement (pattern.length - 1) rest
    else c :: replaceFrom pattern replacement 0 rest

/-- Puts the replacement in the place of every occurrence of the pattern, from left to right. -/
def replaceAll (pattern replacement cs : List Char) : List Char :=
  replaceFrom pattern replacement 0 cs

variable {pattern replacement : List Char}

theorem replaceFrom_append (passed rest : List Char) :
    replaceFrom pattern replacement passed.length (passed ++ rest) =
      replaceAll pattern replacement rest := by
  induction passed with
  | nil => rfl
  | cons c passed ih => exact ih

/-- An occurrence gives way to the replacement. -/
theorem replaceAll_append (filled : pattern ≠ []) (rest : List Char) :
    replaceAll pattern replacement (pattern ++ rest) =
      replacement ++ replaceAll pattern replacement rest := by
  cases pattern with
  | nil => exact absurd rfl filled
  | cons c tail =>
    have starts : startsWith (c :: tail) (c :: (tail ++ rest)) = true := by
      rw [startsWith, ← List.cons_append, dropLead?_append]
      rfl
    rw [List.cons_append, replaceAll, replaceFrom, if_pos starts, List.length_cons,
      Nat.add_sub_cancel, replaceFrom_append]

/-- A character at which the pattern does not start stays. -/
theorem replaceAll_cons {c : Char} {rest : List Char}
    (other : startsWith pattern (c :: rest) = false) :
    replaceAll pattern replacement (c :: rest) = c :: replaceAll pattern replacement rest := by
  rw [replaceAll, replaceFrom, other]
  rfl

theorem startsWith_cons (a : Char) (tail : List Char) (c : Char) (rest : List Char) :
    startsWith (a :: tail) (c :: rest) = (decide (a = c) && startsWith tail rest) := by
  by_cases same : a = c <;> simp [startsWith, dropLead?, same]

/-- One character is replaced at each of its places. -/
theorem replaceAll_singleton (a : Char) (replacement cs : List Char) :
    replaceAll [a] replacement cs = cs.flatMap fun c => if c = a then replacement else [c] := by
  induction cs with
  | nil => rfl
  | cons c rest ih =>
    by_cases same : c = a
    · subst c
      rw [List.flatMap_cons, if_pos rfl, ← ih]
      exact replaceAll_append (List.cons_ne_nil a []) rest
    · rw [List.flatMap_cons, if_neg same, ← ih, replaceAll_cons]
      · rfl
      · simp [startsWith_cons, Ne.symm same]

end ApiGraph.Text

namespace ApiGraph

open Text (replaceAll startsWith replaceAll_cons replaceAll_append startsWith_cons)

namespace Json.Pointer

theorem startsWith_pair {a b c : Char} {rest : List Char} :
    startsWith [a, b] (c :: rest) = true ↔ c = a ∧ rest.head? = some b := by
  have none : startsWith [] = fun _ => true := rfl
  cases rest with
  | nil => simp [startsWith, Text.dropLead?]
  | cons d tail => simp [startsWith_cons, none, eq_comm (b := c), eq_comm (b := d)]

/-- No `0` comes to the front when slashes are put in. -/
theorem head?_of_slashes {rest : List Char}
    (first : (replaceAll ['~', '1'] ['/'] rest).head? = some '0') : rest.head? = some '0' := by
  cases rest with
  | nil => cases first
  | cons c tail =>
    by_cases here : startsWith ['~', '1'] (c :: tail) = true
    · obtain ⟨rfl, second⟩ := startsWith_pair.mp here
      obtain ⟨tail, rfl⟩ := List.head?_eq_some_iff.mp second
      have slash : replaceAll ['~', '1'] ['/'] ('~' :: '1' :: tail) =
          '/' :: replaceAll ['~', '1'] ['/'] tail := replaceAll_append (by simp) tail
      rw [slash] at first
      cases first
    · rw [replaceAll_cons (by simpa using here)] at first
      exact first

/-- The key that a segment stands for comes by two replacements, first of `~1` and then of `~0`. -/
theorem unescape_eq_replaceAll (segment : List Char) :
    unescape segment = replaceAll ['~', '0'] ['~'] (replaceAll ['~', '1'] ['/'] segment) := by
  fun_induction unescape segment with
  | case1 => rfl
  | case2 rest ih =>
    have slash : replaceAll ['~', '1'] ['/'] ('~' :: '1' :: rest) =
        '/' :: replaceAll ['~', '1'] ['/'] rest := replaceAll_append (by simp) rest
    rw [slash, replaceAll_cons (by simp [startsWith_cons]), ih]
  | case3 rest ih =>
    have tilde : replaceAll ['~', '1'] ['/'] ('~' :: '0' :: rest) =
        '~' :: '0' :: replaceAll ['~', '1'] ['/'] rest := by
      rw [replaceAll_cons (by simp [startsWith_cons]), replaceAll_cons (by simp [startsWith_cons])]
    have again : replaceAll ['~', '0'] ['~'] ('~' :: '0' :: replaceAll ['~', '1'] ['/'] rest) =
        '~' :: replaceAll ['~', '0'] ['~'] (replaceAll ['~', '1'] ['/'] rest) :=
      replaceAll_append (by simp) _
    rw [tilde, again, ih]
  | case4 c rest notSlash notTilde ih =>
    have first : startsWith ['~', '1'] (c :: rest) = false := by
      rw [Bool.eq_false_iff, Ne, startsWith_pair]
      rintro ⟨isTilde, second⟩
      obtain ⟨tail, whole⟩ := List.head?_eq_some_iff.mp second
      exact notSlash tail isTilde whole
    have second : startsWith ['~', '0'] (c :: replaceAll ['~', '1'] ['/'] rest) = false := by
      rw [Bool.eq_false_iff, Ne, startsWith_pair]
      rintro ⟨isTilde, second⟩
      obtain ⟨tail, whole⟩ := List.head?_eq_some_iff.mp (head?_of_slashes second)
      exact notTilde tail isTilde whole
    rw [replaceAll_cons first, replaceAll_cons second, ih]

/-- The segment for a key comes by two replacements, first of `~` and then of `/`. -/
theorem escape_eq_replaceAll (key : List Char) :
    escape key = replaceAll ['/'] ['~', '1'] (replaceAll ['~'] ['~', '0'] key) := by
  rw [Text.replaceAll_singleton, Text.replaceAll_singleton]
  induction key with
  | nil => rfl
  | cons c cs ih =>
    rw [List.flatMap_cons, List.flatMap_append, ← ih]
    by_cases tilde : c = '~'
    · subst c
      rfl
    · by_cases slash : c = '/'
      · subst c
        rfl
      · rw [escape_cons tilde slash]
        simp [tilde, slash]

end Json.Pointer

/-- A reference that names a definition holds a pointer to the entry of that name. -/
theorem lookup_of_definitionName? {document : Json} {fields : Table Json} {raw name : String}
    (table : document.pointer? definitionsPointer.toList = some (.object fields))
    (named : definitionName? raw = some name) : ∃ pointer : String, raw = "#" ++ pointer ∧
      Fragment.ofChars pointer.toList = .pointer pointer ∧
      (Fragment.pointer pointer).lookup document = Table.get? fields name := by
  obtain ⟨segment, whole, _, slash, rfl⟩ := definitionName?_eq_some_iff.mp named
  refine ⟨(segmentFragment segment).text, ?_, ?_, lookup_segmentFragment table slash⟩
  · apply String.toList_inj.mp
    rw [Reference.toList_hash, whole, segmentFragment, Fragment.text, String.toList_ofList]
    rfl
  · rw [segmentFragment, Fragment.text, String.toList_ofList]
    rfl

/-- The reference to a definition loses nothing of its name, and nothing else has that reference. A
reference that names a definition leads, by the pointer that it holds, to the entry of exactly that
name, if there is one. The two replacements of each direction make what the one pass makes. -/
theorem definition_references_exact :
    (∀ name, name ≠ "" → definitionName? (definitionRef name) = some name) ∧
    Function.Injective definitionRef ∧
    (∀ document fields raw name,
      Json.pointer? document definitionsPointer.toList = some (.object fields) →
      definitionName? raw = some name → ∃ pointer : String, raw = "#" ++ pointer ∧
        Fragment.ofChars pointer.toList = .pointer pointer ∧
        (Fragment.pointer pointer).lookup document = Table.get? fields name) ∧
    (∀ name, definitionRef name = String.ofList (definitionLead ++
      replaceAll ['/'] ['~', '1'] (replaceAll ['~'] ['~', '0'] name.toList))) ∧
    ∀ raw name, definitionName? raw = some name ↔ ∃ segment,
      raw.toList = definitionLead ++ segment ∧ segment ≠ [] ∧ '/' ∉ segment ∧
      String.ofList (replaceAll ['~', '0'] ['~'] (replaceAll ['~', '1'] ['/'] segment)) = name := by
  refine ⟨fun _ => definitionName?_definitionRef, fun _ _ => definitionRef_injective,
    fun _ _ _ _ => lookup_of_definitionName?, ?_, ?_⟩
  · intro name
    rw [definitionRef, Json.Pointer.escape_eq_replaceAll]
  · intro raw name
    simp only [← Json.Pointer.unescape_eq_replaceAll]
    exact definitionName?_eq_some_iff

/-- A name with a slash, and one that looks like an escape. -/
theorem odd_names_exact : ∃ document fields,
    Json.pointer? document definitionsPointer.toList = some (.object fields) ∧
    definitionName? (definitionRef "v1/~1") = some "v1/~1" ∧
    definitionRef "v1/~1" = "#/components/schemas/v1~1~01" ∧
    (Fragment.pointer "/components/schemas/v1~1~01").lookup document = some (.bool true) ∧
    definitionName? "#/components/schemas/~2" = some "~2" ∧
    (Fragment.pointer "/components/schemas/~2").lookup document = none := by
  have table : Json.pointer? (.object [("components", .object [("schemas",
      .object [("v1//", .bool false), ("v1/~1", .bool true)])])]) definitionsPointer.toList =
      some (.object [("v1//", .bool false), ("v1/~1", .bool true)]) := by rfl
  have named := definition_references_exact.1 "v1/~1" (by decide)
  obtain ⟨pointer, whole, _, found⟩ :=
    definition_references_exact.2.2.1 _ _ (definitionRef "v1/~1") _ table named
  obtain ⟨pointer', whole', _, missing⟩ :=
    definition_references_exact.2.2.1 _ _ "#/components/schemas/~2" "~2" table (by decide)
  obtain rfl : "/components/schemas/v1~1~01" = pointer := (String.append_right_inj "#").mp whole
  obtain rfl : "/components/schemas/~2" = pointer' := (String.append_right_inj "#").mp whole'
  exact ⟨_, _, table, named, whole, found, by decide, missing⟩

end ApiGraph
