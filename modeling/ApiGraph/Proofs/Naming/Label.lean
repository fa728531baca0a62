import ApiGraph.Naming.Words

/-! The label of an identifier. Cutting an identifier into words drops its separators and nothing
else, wherever the words end (`flatten_split`). The label of an ASCII identifier is therefore what
is left of it without separators, in lower case (`flat_of_ascii`), and two identifiers have one
label exactly if each is a respelling of the other (`letters_eq_iff`). -/

namespace ApiGraph

namespace Text

/-- Nothing but ASCII characters. -/
def Ascii (cs : List Char) : Prop := ∀ c ∈ cs, c.toNat < 128

instance (cs : List Char) : Decidable (Ascii cs) :=
  List.decidableBAll (fun c : Char => c.toNat < 128) cs

/-- What holds of the ASCII characters is found by trying them. -/
theorem of_ascii {p : Char → Prop} (each : ∀ n < 128, p (Char.ofNat n)) {c : Char}
    (small : c.toNat < 128) : p c := by
  have holds := each c.toNat small
  rwa [Char.ofNat_toNat] at holds

theorem toLower_of_ascii {c : Char} (small : c.toNat < 128) :
    c.toLower.toNat < 128 ∧ c.toLower.toLower = c.toLower :=
  of_ascii (p := fun c => c.toLower.toNat < 128 ∧ c.toLower.toLower = c.toLower) (by decide) small

/-- Only ASCII capitals change. -/
theorem toLower_of_large {c : Char} (large : 128 ≤ c.toNat) : c.toLower = c := by
  refine dif_neg ?_
  rintro ⟨_, capital⟩
  have bound : c.toNat ≤ 'Z'.toNat := capital
  exact absurd (Nat.le_trans large bound) (by decide)

/-- The final sigma is the one character whose lower case depends on its neighbours. -/
theorem lowerAfter_of_ascii (before : List Char) {cs : List Char} (h : Ascii cs) :
    lowerAfter before cs = cs.map Char.toLower := by
  induction cs generalizing before with
  | nil => rfl
  | cons c rest ih =>
    have small : c.toNat < 128 := h c (by simp)
    have noSigma : c ≠ 'Σ' := by
      rintro rfl
      exact absurd small (by decide)
    have alone : lowerChar c = [c.toLower] := if_pos small
    rw [lowerAfter, if_neg noSigma, alone, ih _ fun d member => h d (by simp [member])]
    rfl

theorem lower_of_ascii {cs : List Char} (h : Ascii cs) : lower cs = cs.map Char.toLower :=
  lowerAfter_of_ascii [] h

end Text

namespace Naming

open Text (Ascii toLower_of_ascii)

/-! Words put together. -/

theorem flatten_extend (c : Char) (pieces : List (List Char)) :
    (extend c pieces).flatten = c :: pieces.flatten := by
  cases pieces <;> rfl

/-- No boundary loses a character or gives one twice, but for the separators. -/
theorem flatten_split (cs : List Char) :
    (split cs).flatten = cs.filter fun c => !isSeparator c := by
  induction cs with
  | nil => rfl
  | cons c rest ih =>
    rw [split]
    by_cases separates : isSeparator c = true
    · rw [if_pos separates, List.flatten_cons, ih, List.filter_cons_of_neg (by simp [separates])]
      rfl
    · rw [if_neg separates, List.filter_cons_of_pos (by simpa using separates)]
      split
      · rw [List.flatten_cons, ih]
        rfl
      · rw [flatten_extend, ih]

/-- What stands in a word stands in the identifier, and is no separator. -/
theorem mem_of_mem_split {cs word : List Char} (h : word ∈ split cs) {c : Char} (here : c ∈ word) :
    c ∈ cs ∧ isSeparator c = false := by
  have member : c ∈ (split cs).flatten := List.mem_flatten.mpr ⟨word, h, here⟩
  rw [flatten_split, List.mem_filter] at member
  simpa using member

/-- The characters of an identifier without the separators, in lower case. -/
def letters (cs : List Char) : List Char := (cs.filter fun c => !isSeparator c).map Char.toLower

theorem letters_cons_of_separator {c : Char} (h : isSeparator c = true) (cs : List Char) :
    letters (c :: cs) = letters cs := by
  rw [letters, List.filter_cons_of_neg (by simp [h]), letters]

theorem letters_cons {c : Char} (h : ¬ isSeparator c = true) (cs : List Char) :
    letters (c :: cs) = c.toLower :: letters cs := by
  rw [letters, List.filter_cons_of_pos (by simpa using h), List.map_cons, letters]

theorem words_of_ascii {ident : String} (ascii : Ascii ident.toList) :
    words ident = if ident.toList = [] then [] else
      (split ident.toList).map fun word => word.map Char.toLower := by
  rw [words]
  simp only [List.isEmpty_iff]
  split
  · rfl
  · refine List.map_congr_left fun word member => Text.lower_of_ascii ?_
    exact fun c here => ascii c (mem_of_mem_split member here).1

theorem flatten_words {ident : String} (ascii : Ascii ident.toList) :
    (words ident).flatten = letters ident.toList := by
  rw [words_of_ascii ascii]
  split
  · rename_i empty
    rw [empty]
    rfl
  · rw [← List.map_flatten, flatten_split, letters]

theorem flat_of_ascii {ident : String} (ascii : Ascii ident.toList) :
    flat ident = String.ofList (letters ident.toList) := by
  rw [flat, flatten_words ascii]

/-! What a label is made of. -/

/-- Neither separators nor capitals, and nothing but ASCII characters. -/
def Settled (cs : List Char) : Prop :=
  ∀ c ∈ cs, c.toNat < 128 ∧ isSeparator c = false ∧ c.toLower = c

instance (cs : List Char) : Decidable (Settled cs) :=
  List.decidableBAll (fun c : Char => c.toNat < 128 ∧ isSeparator c = false ∧ c.toLower = c) cs

theorem isSeparator_toLower (c : Char) : isSeparator c.toLower = isSeparator c := by
  rcases Nat.lt_or_ge c.toNat 128 with small | large
  · exact Text.of_ascii (p := fun c => isSeparator c.toLower = isSeparator c) (by decide) small
  · rw [Text.toLower_of_large large]

theorem Settled.append {front back : List Char} (h : Settled front) (h' : Settled back) :
    Settled (front ++ back) := List.forall_mem_append.mpr ⟨h, h'⟩

theorem Settled.letters_eq {cs : List Char} (h : Settled cs) : letters cs = cs := by
  rw [letters, List.filter_eq_self.mpr fun c member => by simp [(h c member).2.1]]
  exact (List.map_congr_left fun c member => (h c member).2.2).trans (List.map_id cs)

theorem settled_letters {cs : List Char} (ascii : Ascii cs) : Settled (letters cs) := by
  intro d member
  obtain ⟨c, kept, rfl⟩ := List.mem_map.mp member
  obtain ⟨there, apart⟩ := List.mem_filter.mp kept
  obtain ⟨small, again⟩ := toLower_of_ascii (ascii c there)
  rw [isSeparator_toLower]
  exact ⟨small, by simpa using apart, again⟩

/-- A text that is settled is its own label. -/
theorem Settled.flat_eq {ident : String} (h : Settled ident.toList) : flat ident = ident := by
  rw [flat_of_ascii fun c member => (h c member).1, h.letters_eq, String.ofList_toList]

/-! Respelling. -/

/-- Spellings of one identifier: letter by letter the same but for case, with separators
anywhere. -/
inductive Respelled : List Char → List Char → Prop
  | nil : Respelled [] []
  | dropped {c : Char} {as bs : List Char} (separates : isSeparator c = true)
    (rest : Respelled as bs) : Respelled (c :: as) bs
  | added {c : Char} {as bs : List Char} (separates : isSeparator c = true)
    (rest : Respelled as bs) : Respelled as (c :: bs)
  | letter {a b : Char} {as bs : List Char} (same : a.toLower = b.toLower)
    (rest : Respelled as bs) : Respelled (a :: as) (b :: bs)

theorem Respelled.letters_eq {as bs : List Char} (h : Respelled as bs) :
    letters as = letters bs := by
  induction h with
  | nil => rfl
  | dropped separates _ ih => rw [letters_cons_of_separator separates, ih]
  | added separates _ ih => rw [letters_cons_of_separator separates, ih]
  | @letter a b as bs same _ ih =>
    have alike : isSeparator a = isSeparator b := by
      rw [← isSeparator_toLower a, same, isSeparator_toLower]
    by_cases separates : isSeparator b = true
    · rw [letters_cons_of_separator (alike.trans separates), letters_cons_of_separator separates, ih]
    · rw [letters_cons (alike ▸ separates), letters_cons separates, same, ih]

theorem respelled_of_letters {as bs : List Char} (same : letters as = letters bs) :
    Respelled as bs := by
  induction as generalizing bs with
  | nil =>
    induction bs with
    | nil => exact .nil
    | cons b bs ih =>
      by_cases separates : isSeparator b = true
      · rw [letters_cons_of_separator separates] at same
        exact .added separates (ih same)
      · rw [letters_cons separates] at same
        cases same
  | cons a as ih =>
    by_cases dropped : isSeparator a = true
    · rw [letters_cons_of_separator dropped] at same
      exact .dropped dropped (ih same)
    -- The other spelling may have separators before the letter that this one begins with.
    · induction bs with
      | nil =>
        rw [letters_cons dropped] at same
        cases same
      | cons b bs later =>
        by_cases separates : isSeparator b = true
        · rw [letters_cons_of_separator separates] at same
          exact .added separates (later same)
        · rw [letters_cons dropped, letters_cons separates] at same
          obtain ⟨first, rest⟩ := List.cons.inj same
          exact .letter first (ih rest)

theorem letters_eq_iff {as bs : List Char} : letters as = letters bs ↔ Respelled as bs :=
  ⟨respelled_of_letters, Respelled.letters_eq⟩

/-- The label of an identifier is what is left without separators, in lower case. It is its own
label, and the label of exactly the respellings of the identifier. -/
theorem flat_eq_letters {ident : String} (ascii : Ascii ident.toList) :
    flat ident = String.ofList (letters ident.toList) ∧ flat (flat ident) = flat ident ∧
    ∀ other : String, Ascii other.toList →
      (flat other = flat ident ↔ Respelled other.toList ident.toList) := by
  have settled : Settled (flat ident).toList := by
    rw [flat_of_ascii ascii, String.toList_ofList]
    exact settled_letters ascii
  refine ⟨flat_of_ascii ascii, settled.flat_eq, fun other ascii' => ?_⟩
  rw [flat_of_ascii ascii, flat_of_ascii ascii', String.ofList_inj, letters_eq_iff]

/-- An acronym, a digit, and separators that lead, trail and repeat. -/
theorem xmlHttp2Request_flat :
    Ascii "__XMLHttp2-Request ".toList ∧ flat "__XMLHttp2-Request " = "xmlhttp2request" ∧
    flat "xmlhttp2request" = "xmlhttp2request" ∧
    flat "xml_HTTP2 request" = flat "__XMLHttp2-Request " ∧
    Respelled "xml_HTTP2 request".toList "__XMLHttp2-Request ".toList := by
  have ascii : Ascii "__XMLHttp2-Request ".toList := by decide
  obtain ⟨whole, again, respelled⟩ := flat_eq_letters ascii
  have left : letters "__XMLHttp2-Request ".toList = "xmlhttp2request".toList := by decide
  rw [left, String.ofList_toList] at whole
  rw [whole] at again
  have same : flat "xml_HTTP2 request" = flat "__XMLHttp2-Request " := by decide +kernel
  exact ⟨ascii, whole, again, same, (respelled _ (by decide)).mp same⟩

end Naming

end ApiGraph
