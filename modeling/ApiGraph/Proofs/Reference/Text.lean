import ApiGraph.Proofs.Json.Pointer
import ApiGraph.Reference.Basic

/-! Reference strings and what they read as. A fragment that was read can be written behind a hash
and reads back (`ofText_hash`), and so does the reference to a definition, unless its name ends in
white space, which reading cuts off (`ofText_definitionRef`). A reference names a definition if it
leads into the table of definitions by one segment (`definitionName?_eq_some_iff`), and the place of
that segment is the entry of the name that it stands for (`lookup_segmentFragment`). -/

namespace ApiGraph

open Text (Trimmed)

/-- The mark of an address on the network. -/
def remoteMark : List Char := [':', '/', '/']

namespace Fragment

theorem text_ofChars (cs : List Char) : (ofChars cs).text = String.ofList cs := by
  unfold ofChars
  split <;> rfl

/-- What a fragment that stands behind a hash is like. -/
structure Written (f : Fragment) : Prop where
  reads : f = ofChars f.text.toList
  near : Text.contains remoteMark ('#' :: f.text.toList) = false
  clean : ∀ c ∈ f.text.toList.getLast?, Text.isBlank c = false

/-- A fragment is of the kind that its text says: a pointer begins with a slash, a name does not,
and neither is empty. -/
def ReadsBack (f : Fragment) : Prop := f = ofChars f.text.toList

/-- Fragments that read back are told apart by their texts. -/
theorem ReadsBack.eq_of_text {f g : Fragment} (h : f.ReadsBack) (h' : g.ReadsBack)
    (same : f.text = g.text) : f = g := by
  rw [h, h', same]

theorem Written.eq_of_text {f g : Fragment} (h : f.Written) (h' : g.Written)
    (same : f.text = g.text) : f = g := ReadsBack.eq_of_text h.reads h'.reads same

theorem Written.ne_document {f : Fragment} (h : f.Written) (filled : f ≠ .document) :
    f.text.toList ≠ [] := by
  intro empty
  apply filled
  rw [h.reads, empty]
  rfl

end Fragment

namespace Reference

/-- What a reference string that can be read is made of. -/
structure Parts (raw : String) (ref : Reference) where
  path : List Char
  fragment : List Char
  whole : Text.trim raw.toList = path ++ '#' :: fragment ∨
    Text.trim raw.toList = path ∧ fragment = []
  bare : '#' ∉ path
  filled : path ++ fragment ≠ []
  near : Text.contains remoteMark (Text.trim raw.toList) = false
  result : ref = if path.isEmpty then .inFile (.ofChars fragment)
    else .external ⟨String.ofList path⟩ (.ofChars fragment)

theorem parts_of_ofText {raw : String} {ref : Reference} (h : ofText raw = .ok ref) :
    Nonempty (Parts raw ref) := by
  simp only [ofText] at h
  split at h
  · cases h
  rename_i filled
  split at h
  · cases h
  rename_i near
  simp only [Bool.or_eq_true, List.isEmpty_iff, beq_iff_eq, not_or] at filled
  have near : Text.contains remoteMark (Text.trim raw.toList) = false := by
    simpa [remoteMark] using near
  cases cut : Text.cutFirst '#' (Text.trim raw.toList) with
  | none =>
    have absent := Text.cutFirst_eq_none cut
    refine ⟨⟨_, [], .inr ⟨rfl, rfl⟩, absent, by simpa using filled.1, near, ?_⟩⟩
    simp only [cut] at h
    split at h <;> cases h <;> simp_all [Fragment.ofChars]
  | some pieces =>
    obtain ⟨path, fragment⟩ := pieces
    obtain ⟨whole, absent⟩ := Text.cutFirst_eq_some cut
    refine ⟨⟨path, fragment, .inl whole, absent, ?_, near, ?_⟩⟩
    · intro nothing
      obtain ⟨rfl, rfl⟩ := List.append_eq_nil_iff.mp nothing
      exact filled.2 whole
    · simp only [cut] at h
      split at h <;> cases h <;> simp_all

theorem Parts.fragment_eq {raw : String} {ref : Reference} (p : Parts raw ref) :
    ref.fragment = .ofChars p.fragment := by
  obtain ⟨path, fragment, _, _, _, _, rfl⟩ := p
  simp only
  split <;> rfl

theorem Parts.isLocal_iff {raw : String} {ref : Reference} (p : Parts raw ref) :
    ref.isLocal = true ↔ p.path = [] := by
  obtain ⟨path, fragment, _, _, _, _, rfl⟩ := p
  simp only
  split <;> simp_all [isLocal]

/-- The fragment of a reference that was read. -/
theorem fragment_written {raw : String} {ref : Reference} (h : ofText raw = .ok ref) :
    ref.fragment.Written := by
  obtain ⟨p⟩ := parts_of_ofText h
  have text : ref.fragment.text.toList = p.fragment := by
    rw [p.fragment_eq, Fragment.text_ofChars, String.toList_ofList]
  have trimmed := Text.trimmed_trim raw.toList
  refine ⟨by rw [text, p.fragment_eq], ?_, ?_⟩
  · rw [text]
    rcases p.whole with whole | ⟨_, nothing⟩
    · exact Text.contains_of_suffix (whole ▸ p.near)
    · rw [nothing]
      decide
  · rw [text]
    rcases p.whole with whole | ⟨_, nothing⟩
    · intro c last
      apply trimmed.2 c
      rw [whole]
      cases fragment : p.fragment with
      | nil => simp [fragment] at last
      | cons d rest => simpa [fragment] using last
    · simp [nothing]

/-- A reference string is local if a hash is the first thing in it. -/
def IsLocalText (raw : String) : Prop := (Text.trim raw.toList).head? = some '#'

instance (raw : String) : Decidable (IsLocalText raw) :=
  inferInstanceAs (Decidable ((Text.trim raw.toList).head? = some '#'))

theorem isLocal_iff_isLocalText {raw : String} {ref : Reference} (h : ofText raw = .ok ref) :
    ref.isLocal = true ↔ IsLocalText raw := by
  obtain ⟨p⟩ := parts_of_ofText h
  rw [p.isLocal_iff, IsLocalText]
  rcases p.whole with whole | ⟨whole, nothing⟩
  · rw [whole]
    cases path : p.path with
    | nil => simp
    | cons c rest =>
      have other : c ≠ '#' := by
        rintro rfl
        exact p.bare (by simp [path])
      simp [other]
  · have filled := p.filled
    rw [nothing, List.append_nil] at filled
    rw [whole]
    cases path : p.path with
    | nil => exact absurd path filled
    | cons c rest =>
      have other : c ≠ '#' := by
        rintro rfl
        exact p.bare (by simp [path])
      simp [other]

theorem isLocalText_of_inFile {raw : String} {fragment : Fragment}
    (h : ofText raw = .ok (.inFile fragment)) : IsLocalText raw :=
  (isLocal_iff_isLocalText h).mp rfl

theorem not_isLocalText_of_external {raw : String} {path : Path} {fragment : Fragment}
    (h : ofText raw = .ok (.external path fragment)) : ¬ IsLocalText raw := by
  rw [← isLocal_iff_isLocalText h]
  exact Bool.false_ne_true

theorem trimmed_hash {fragment : List Char}
    (clean : ∀ c ∈ fragment.getLast?, Text.isBlank c = false) : Trimmed ('#' :: fragment) := by
  constructor
  · simp only [List.head?_cons, Option.mem_some_iff]
    rintro c rfl
    decide
  · intro c last
    cases fragment with
    | nil =>
      simp only [List.getLast?_singleton, Option.mem_some_iff] at last
      subst c
      decide
    | cons d rest =>
      rw [List.getLast?_cons_cons] at last
      exact clean c last

theorem toList_hash (text : String) : ("#" ++ text).toList = '#' :: text.toList := by
  rw [String.toList_append]
  rfl

theorem isLocalText_hash (text : String) : IsLocalText ("#" ++ text) := by
  rw [IsLocalText, toList_hash]
  exact Text.head?_trim (by decide) text.toList

/-- A text that is left with something behind a hash at its start is a local reference. -/
theorem ofText_of_trim {raw : String} {fragment : List Char}
    (trim : Text.trim raw.toList = '#' :: fragment) (filled : fragment ≠ [])
    (near : Text.contains remoteMark ('#' :: fragment) = false) :
    ofText raw = .ok (.inFile (.ofChars fragment)) := by
  have near : Text.contains [':', '/', '/'] ('#' :: fragment) = false := near
  have cut : Text.cutFirst '#' ('#' :: fragment) = some ([], fragment) :=
    @Text.cutFirst_append _ [] (by simp) _
  have single : (('#' :: fragment) == ['#']) = false := by simpa using filled
  simp only [ofText, trim, near, cut, single, List.isEmpty_cons, Bool.or_self, Bool.false_eq_true,
    ↓reduceIte, List.isEmpty_nil]

/-- A fragment behind a hash reads back, unless it is empty. -/
theorem ofText_hash {f : Fragment} (h : f.Written) (filled : f ≠ .document) :
    ofText ("#" ++ f.text) = .ok (.inFile f) := by
  have trim : Text.trim ("#" ++ f.text).toList = '#' :: f.text.toList := by
    rw [toList_hash]
    exact Text.trim_of_trimmed (trimmed_hash h.clean)
  rw [ofText_of_trim trim (h.ne_document filled) h.near, ← h.reads]

/-- A hash alone is no reference. -/
theorem ofText_hash_document :
    ofText ("#" ++ Fragment.document.text) = .error (.badReference "#" .empty) := rfl

end Reference

/-! References to definitions. -/

/-- The place of a definition in a document. -/
def definitionFragment (name : String) : Fragment :=
  .pointer (String.ofList ("/components/schemas/".toList ++ Json.Pointer.escape name.toList))

/-- A name without white space at its end. -/
def EndsClean (name : String) : Prop := ∀ c ∈ name.toList.getLast?, Text.isBlank c = false

instance (name : String) : Decidable (EndsClean name) :=
  decidable_of_iff (name.toList.getLast?.all fun c => !Text.isBlank c) <| by
    rw [EndsClean]
    cases name.toList.getLast? <;> simp

theorem definitionFragment_text (name : String) : (definitionFragment name).text.toList =
    "/components/schemas/".toList ++ Json.Pointer.escape name.toList := by
  simp [definitionFragment, Fragment.text]

theorem hash_definitionFragment (name : String) :
    '#' :: (definitionFragment name).text.toList =
      definitionLead ++ Json.Pointer.escape name.toList := by
  rw [definitionFragment_text]
  rfl

theorem toList_definitionRef (name : String) :
    (definitionRef name).toList = definitionLead ++ Json.Pointer.escape name.toList := by
  rw [definitionRef, String.toList_ofList]

theorem definitionRef_eq (name : String) :
    definitionRef name = "#" ++ (definitionFragment name).text := by
  apply String.toList_inj.mp
  rw [Reference.toList_hash, hash_definitionFragment, toList_definitionRef]

/-- There is no colon in front of a segment and no slash in it. -/
theorem near_of_segment {segment : List Char} (slash : '/' ∉ segment) :
    Text.contains remoteMark (definitionLead ++ segment) = false := by
  cases found : Text.contains remoteMark (definitionLead ++ segment) with
  | false => rfl
  | true =>
    obtain ⟨front, back, whole⟩ := Text.exists_of_contains found
    rcases List.append_eq_append_iff.mp whole with ⟨more, _, tail⟩ | ⟨more, start, tail⟩
    · rw [tail] at slash
      simp [remoteMark] at slash
    · have colon : ':' ∉ definitionLead := by decide
      cases more with
      | nil =>
        simp only [List.nil_append] at tail
        rw [← tail] at slash
        simp [remoteMark] at slash
      | cons c rest =>
        simp only [remoteMark, List.cons_append, List.cons.injEq] at tail
        obtain ⟨rfl, _⟩ := tail
        simp [start] at colon

theorem definitionFragment_near (name : String) :
    Text.contains remoteMark ('#' :: (definitionFragment name).text.toList) = false := by
  rw [hash_definitionFragment]
  exact near_of_segment (Json.Pointer.slash_not_mem_escape name.toList)

theorem definitionFragment_written {name : String} (h : EndsClean name) :
    (definitionFragment name).Written where
  reads := by
    rw [definitionFragment_text]
    rfl
  near := definitionFragment_near name
  clean := by
    rw [definitionFragment_text]
    intro c last
    cases segment : Json.Pointer.escape name.toList with
    | nil =>
      rw [segment] at last
      have slash : c = '/' := by simpa using last.symm
      subst c
      decide
    | cons d rest =>
      have blank := (Json.Pointer.getLast?_escape_blank name.toList).mpr h c
      apply blank
      rw [segment] at last ⊢
      rw [List.getLast?_append] at last
      simpa [List.getLast?_cons] using last

theorem definitionFragment_ne_document (name : String) : definitionFragment name ≠ .document := by
  simp [definitionFragment]

/-- The reference to a definition leads to its place. -/
theorem ofText_definitionRef {name : String} (h : EndsClean name) :
    Reference.ofText (definitionRef name) = .ok (.inFile (definitionFragment name)) := by
  rw [definitionRef_eq]
  exact Reference.ofText_hash (definitionFragment_written h) (definitionFragment_ne_document name)

/-- The place that a segment behind the table of definitions leads to. -/
def segmentFragment (segment : List Char) : Fragment :=
  .pointer (String.ofList (definitionsPointer.toList ++ '/' :: segment))

theorem trim_of_segment {raw : String} {segment : List Char}
    (whole : raw.toList = definitionLead ++ segment) :
    Text.trim raw.toList = definitionLead ++ Text.trimEnd segment := by
  have lead : Trimmed definitionLead := by
    constructor
    · rintro c ⟨⟩
      decide
    · rintro c ⟨⟩
      decide
  rw [whole]
  exact Text.trim_append lead (by decide) segment

/-- What leads into the table of definitions and no further is local, and the white space at its
end does not count. -/
theorem ofText_of_segment {raw : String} {segment : List Char}
    (whole : raw.toList = definitionLead ++ segment) (slash : '/' ∉ Text.trimEnd segment) :
    Reference.ofText raw = .ok (.inFile (segmentFragment (Text.trimEnd segment))) :=
  Reference.ofText_of_trim (trim_of_segment whole) (by simp) (near_of_segment slash)

/-- The reference to a definition can be read, whatever its name is. -/
theorem exists_ofText_definitionRef (name : String) :
    ∃ fragment, Reference.ofText (definitionRef name) = .ok (.inFile fragment) :=
  ⟨_, ofText_of_segment (toList_definitionRef name)
    (Text.not_mem_trimEnd (Json.Pointer.slash_not_mem_escape name.toList))⟩

/-- Reading cuts white space off, so a name that ends in it is not what its reference leads to. -/
theorem endsClean_of_written {name : String} (h : (definitionFragment name).Written) :
    EndsClean name := by
  rw [EndsClean, ← Json.Pointer.getLast?_escape_blank]
  intro c last
  apply h.clean c
  rw [definitionFragment_text]
  cases segment : Json.Pointer.escape name.toList with
  | nil => simp [segment] at last
  | cons d rest =>
    rw [segment] at last
    rw [List.getLast?_append]
    simpa [List.getLast?_cons] using last

theorem definitionFragment_injective {a b : String}
    (h : definitionFragment a = definitionFragment b) : a = b := by
  have texts := congrArg (fun f : Fragment => f.text.toList) h
  simp only [definitionFragment_text, List.append_cancel_left_eq] at texts
  have keys := congrArg Json.Pointer.unescape texts
  rw [Json.Pointer.unescape_escape, Json.Pointer.unescape_escape] at keys
  exact String.toList_inj.mp keys

theorem definitionRef_injective {a b : String} (same : definitionRef a = definitionRef b) :
    a = b := by
  rw [definitionRef_eq, definitionRef_eq, String.append_right_inj] at same
  exact definitionFragment_injective (congrArg Fragment.pointer same)

theorem escape_ne_nil {name : String} (h : name ≠ "") : Json.Pointer.escape name.toList ≠ [] := by
  intro empty
  apply h
  apply String.toList_inj.mp
  rw [← Json.Pointer.unescape_escape name.toList, empty]
  rfl

/-- The name of a definition is what stands behind the last slash of its place, also if that stands
behind something else. -/
theorem cutLast_definitionFragment (before : List Char) (name : String) :
    Text.cutLast '/' (before ++ (definitionFragment name).text.toList) =
      some (before ++ "/components/schemas".toList, Json.Pointer.escape name.toList) := by
  have pieces : before ++ (definitionFragment name).text.toList =
      (before ++ "/components/schemas".toList) ++ '/' :: Json.Pointer.escape name.toList := by
    rw [definitionFragment_text, List.append_assoc]
    rfl
  rw [pieces, Text.cutLast_append _ (Json.Pointer.slash_not_mem_escape _)]

theorem lastSegment?_definitionFragment {name : String} (h : name ≠ "") :
    (definitionFragment name).lastSegment? = some name := by
  have cut := cutLast_definitionFragment [] name
  rw [definitionFragment, Fragment.text, List.nil_append] at cut
  simp only [definitionFragment, Fragment.lastSegment?, cut]
  rw [if_neg (by simpa using escape_ne_nil h), Json.Pointer.unescape_escape, String.ofList_toList]

/-- A reference that names a definition leads into the table of definitions by one segment. -/
theorem definitionName?_eq_some_iff {raw name : String} : definitionName? raw = some name ↔
    ∃ segment, raw.toList = definitionLead ++ segment ∧ segment ≠ [] ∧ '/' ∉ segment ∧
      Json.Pointer.keyOf segment = name := by
  rw [definitionName?]
  constructor
  · intro h
    split at h
    · rename_i segment lead
      split at h
      · cases h
      · rename_i proper
        simp only [Bool.or_eq_true, List.isEmpty_iff, List.contains_eq_mem, decide_eq_true_eq,
          not_or] at proper
        exact ⟨segment, Text.dropLead?_eq_some lead, proper.1, proper.2, Option.some.inj h⟩
    · cases h
  · rintro ⟨segment, whole, filled, slash, rfl⟩
    rw [whole, Text.dropLead?_append]
    simp [filled, slash, Json.Pointer.keyOf]

/-- The name that a reference to a definition stands for. -/
theorem definitionName?_definitionRef {name : String} (h : name ≠ "") :
    definitionName? (definitionRef name) = some name := by
  exact definitionName?_eq_some_iff.mpr ⟨_, toList_definitionRef name, escape_ne_nil h,
    Json.Pointer.slash_not_mem_escape name.toList, Json.Pointer.keyOf_escape name⟩

/-! Following the place of a definition. -/

theorem segments_definition (name : String) :
    Text.split '/' ("components/schemas/".toList ++ Json.Pointer.escape name.toList) =
      Json.definitionSegments name := by
  have components : "components/schemas/".toList ++ Json.Pointer.escape name.toList =
      "components".toList ++ '/' :: ("schemas".toList ++ '/' ::
        Json.Pointer.escape name.toList) := rfl
  rw [components, Text.split_append (by decide), Text.split_append (by decide),
    Text.split_of_not_mem (Json.Pointer.slash_not_mem_escape _)]
  rfl

/-- One segment behind the place of the table leads to an entry of it. -/
theorem lookup_segmentFragment {document : Json} {fields : Table Json}
    (table : document.pointer? definitionsPointer.toList = some (.object fields))
    {segment : List Char} (slash : '/' ∉ segment) :
    (segmentFragment segment).lookup document =
      Table.get? fields (Json.Pointer.keyOf segment) := by
  have pieces (rest : List Char) : definitionsPointer.toList ++ rest =
      '/' :: ("components".toList ++ '/' :: ("schemas".toList ++ rest)) := rfl
  have whole := pieces []
  rw [List.append_nil] at whole
  rw [whole, Json.pointer?_slash, Text.split_append (by decide), List.append_nil,
    Text.split_of_not_mem (by decide)] at table
  rw [segmentFragment, Fragment.lookup, String.toList_ofList, pieces, Json.pointer?_slash,
    Text.split_append (by decide), Text.split_append (by decide), Text.split_of_not_mem slash]
  have split : ["components".toList, "schemas".toList, segment] =
    ["components".toList, "schemas".toList] ++ [segment] := rfl
  rw [split, Json.follow_append, table, Option.bind_some, Json.follow_cons, Json.step_object]
  exact Option.bind_fun_some _

/-! Following a fragment. -/

/-- The value at a key is what one step leads to. -/
theorem Json.get?_eq_follow {j : Json} (shape : j.isObject = true) (key : String) :
    j.get? key = j.follow [Json.Pointer.escape key.toList] := by
  cases j with
  | object fields =>
    rw [Json.follow_cons, Json.step_object, Json.Pointer.unescape_escape, String.ofList_toList]
    change Table.get? fields key = _
    cases Table.get? fields key <;> rfl
  | _ => cases shape

namespace Fragment

/-- The segments of a pointer to the fragment. -/
def segments : Fragment → List (List Char)
  | .document => []
  | .name text => [Json.Pointer.escape text.toList]
  | .pointer text => Text.split '/' (text.toList.drop 1)

variable {f g : Fragment} {text : String}

theorem Written.exists_pointer (written : (pointer text).Written) :
    ∃ rest, text.toList = '/' :: rest := by
  have reads : pointer text = ofChars text.toList := written.reads
  unfold ofChars at reads
  split at reads
  · cases reads
  · exact ⟨_, ‹_›⟩
  · cases reads

theorem Written.name_ne_empty (written : (name text).Written) : text ≠ "" := by
  rintro rfl
  exact absurd written.reads (by decide)

theorem lookup_pointer (written : (pointer text).Written) (j : Json) :
    (pointer text).lookup j = j.follow (pointer text).segments := by
  obtain ⟨rest, whole⟩ := written.exists_pointer
  rw [lookup, whole, Json.pointer?_slash, segments, whole]
  rfl

theorem lookup_eq_follow (written : f.Written) {j : Json} (shape : j.isObject = true) :
    f.lookup j = j.follow f.segments := by
  cases f with
  | document => rfl
  | name text => exact Json.get?_eq_follow shape text
  | pointer text => exact lookup_pointer written j

/-- The keys on the way to the fragment. -/
def keys (place : Fragment) : List String := place.segments.map Json.Pointer.keyOf

/-- What stands at a fragment is found through its keys. -/
theorem follow_of_lookup (written : f.Written) {j node : Json} (found : f.lookup j = some node) :
    j.follow f.segments = some node := by
  cases f with
  | document => exact found
  | name text =>
    have shape : j.isObject = true := by
      cases j with
      | object fields => rfl
      | _ => cases found
    rw [← lookup_eq_follow written shape, found]
  | pointer text => rw [← lookup_pointer written, found]

theorem node_of_keys (hf : f.Written) (hg : g.Written) (same : f.keys = g.keys)
    {j node node' : Json} (found : f.lookup j = some node) (found' : g.lookup j = some node') :
    node = node' := by
  have there := follow_of_lookup hf found
  rw [Json.follow_congr same, follow_of_lookup hg found'] at there
  exact (Option.some.inj there).symm

/-- The last segment is the last key, unless that is empty. -/
theorem lastSegment?_eq (written : f.Written) :
    f.lastSegment? = f.keys.getLast?.filter fun key => key ≠ "" := by
  cases f with
  | document => rfl
  | name text =>
    simp [lastSegment?, keys, segments, Json.Pointer.keyOf_escape, Option.filter,
      written.name_ne_empty]
  | pointer text =>
    obtain ⟨rest, whole⟩ := written.exists_pointer
    -- The text is cut at its last slash, and the last piece stands behind it.
    have cut : ∃ before after, Text.cutLast '/' text.toList = some (before, after) ∧
        (Text.split '/' rest).getLast? = some after := by
      by_cases slash : '/' ∈ rest
      · obtain ⟨before, after, rfl, bare⟩ := Text.exists_last slash
        refine ⟨'/' :: before, after, ?_, ?_⟩
        · rw [whole, ← List.cons_append, Text.cutLast_append _ bare]
        · rw [Text.split_append_last before bare, List.getLast?_append, List.getLast?_singleton]
          rfl
      · refine ⟨[], rest, ?_, ?_⟩
        · rw [whole]
          exact Text.cutLast_append [] slash
        · rw [Text.split_of_not_mem slash]
          rfl
    obtain ⟨before, after, isCut, last⟩ := cut
    simp only [lastSegment?, isCut]
    simp only [keys, segments, whole, List.drop_succ_cons, List.drop_zero, List.getLast?_map, last,
      Option.map_some]
    by_cases empty : after = []
    · subst empty
      rfl
    · have filled : Json.Pointer.keyOf after ≠ "" := by
        intro same
        apply empty
        rw [← Json.Pointer.unescape_eq_nil]
        exact String.ofList_inj.mp same
      rw [if_neg (by simpa using empty), Option.filter_some_pos (by simpa using filled)]
      rfl

end Fragment

theorem keys_definitionFragment (name : String) :
    (definitionFragment name).keys = ["components", "schemas", name] := by
  have lead : (definitionFragment name).text.toList.drop 1 =
      "components/schemas/".toList ++ Json.Pointer.escape name.toList := by
    rw [definitionFragment_text]
    rfl
  have segments : (definitionFragment name).segments = Json.definitionSegments name :=
    (congrArg (Text.split '/') lead).trans (segments_definition name)
  rw [Fragment.keys, segments, Json.definitionSegments, List.map_cons, List.map_cons,
    List.map_singleton, Json.Pointer.keyOf_escape]
  rfl

end ApiGraph
