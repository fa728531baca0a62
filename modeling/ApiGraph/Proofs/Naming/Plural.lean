import ApiGraph.Naming.Plural
import ApiGraph.Proofs.Naming.Label
import ApiGraph.Proofs.Text.Trim

/-! The plural of an identifier is its label with another last word (`pluralize_of_words`): what
stands before the last underscore of the snake form are the other words, however many of them are
empty. A word has exactly one plural (`pluralWord_eq_iff`): that of its table if it is listed as a
whole, and otherwise the regular one for its ending. -/

namespace ApiGraph

namespace Text

variable {sep : Char} {pieces : List (List Char)} {front tail cs : List Char}

/-! Pieces with a separator between them. -/

theorem join_cons_cons (between piece next : List Char) (rest : List (List Char)) :
    join between (piece :: next :: rest) = piece ++ between ++ join between (next :: rest) := rfl

theorem join_concat (between : List Char) (filled : pieces ≠ []) (last : List Char) :
    join between (pieces ++ [last]) = join between pieces ++ between ++ last := by
  induction pieces with
  | nil => exact absurd rfl filled
  | cons piece rest ih =>
    cases rest with
    | nil => rfl
    | cons next rest =>
      have later := ih (by simp)
      simp only [List.cons_append] at later ⊢
      rw [join_cons_cons, later, join_cons_cons]
      simp only [List.append_assoc]

theorem cutLast_join (filled : pieces ≠ []) {last : List Char} (clean : sep ∉ last) :
    cutLast sep (join [sep] (pieces ++ [last])) = some (join [sep] pieces, last) := by
  rw [join_concat _ filled, List.append_assoc]
  exact cutLast_append _ clean

theorem filter_join (clean : ∀ piece ∈ pieces, sep ∉ piece) :
    (join [sep] pieces).filter (· != sep) = pieces.flatten := by
  have whole : ∀ piece ∈ pieces, piece.filter (· != sep) = piece := by
    intro piece member
    refine List.filter_eq_self.mpr fun c here => ?_
    have other : c ≠ sep := fun same => clean piece member (same ▸ here)
    simpa using other
  induction pieces with
  | nil => rfl
  | cons piece rest ih =>
    have first := whole piece (by simp)
    have later := ih (fun p member => clean p (by simp [member]))
      fun p member => whole p (by simp [member])
    cases rest with
    | nil => simpa [join] using first
    | cons next rest =>
      rw [join_cons_cons, List.filter_append, List.filter_append, first, later]
      simp

/-! Tails. -/

theorem dropTail?_append (front tail : List Char) : dropTail? tail (front ++ tail) = some front := by
  rw [dropTail?, List.reverse_append, dropLead?_append]
  simp

theorem dropTail?_eq_some_iff : dropTail? tail cs = some front ↔ cs = front ++ tail := by
  constructor
  · intro h
    obtain ⟨rest, dropped, rfl⟩ := Option.map_eq_some_iff.mp h
    have whole := congrArg List.reverse (dropLead?_eq_some dropped)
    simpa using whole
  · rintro rfl
    exact dropTail?_append front tail

theorem endsWith_iff : endsWith tail cs = true ↔ tail <:+ cs := by
  rw [endsWith, Option.isSome_iff_exists]
  simp only [dropTail?_eq_some_iff]
  exact ⟨fun ⟨front, h⟩ => ⟨front, h.symm⟩, fun ⟨front, h⟩ => ⟨front, h.symm⟩⟩

end Text

namespace Naming

open Text (Ascii)

variable {word plural : List Char}

/-! The plural of one word. -/

/-- The words of the tables with their plurals. -/
inductive Listed : List Char → List Char → Prop
  | uncountable {name : String} (h : name ∈ uncountable) : Listed name.toList name.toList
  | irregular {one many : String} (h : (one, many) ∈ irregular) : Listed one.toList many.toList
  | ves {name : String} {stem tail : List Char} (h : name ∈ withVes)
    (isTail : tail = ['f'] ∨ tail = ['f', 'e']) (whole : name.toList = stem ++ tail) :
    Listed name.toList (stem ++ ['v', 'e', 's'])
  | oes {name : String} (h : name ∈ withOes) : Listed name.toList (name.toList ++ ['e', 's'])

/-- Endings that take a plural in `es`. -/
def hisses : List (List Char) := [['s'], ['x'], ['z'], ['c', 'h'], ['s', 'h']]

/-- The regular plurals, by the ending of the word. -/
inductive Regular : List Char → List Char → Prop
  | hissing {word tail : List Char} (h : tail ∈ hisses) (ends : tail <:+ word) :
    Regular word (word ++ ['e', 's'])
  | consonant {stem : List Char} (h : endsInVowel stem = false) :
    Regular (stem ++ ['y']) (stem ++ ['i', 'e', 's'])
  | other {word : List Char} (calm : ∀ tail ∈ hisses, ¬ tail <:+ word)
    (noConsonant : ∀ stem, word = stem ++ ['y'] → endsInVowel stem = true) :
    Regular word (word ++ ['s'])

/-- The plural of a word: a table holds for whole words only, and before the rules. -/
inductive Plural : List Char → List Char → Prop
  | empty : Plural [] []
  | listed {word plural : List Char} (h : Listed word plural) : Plural word plural
  | regular {word plural : List Char} (filled : word ≠ []) (free : ∀ other, ¬ Listed word other)
    (h : Regular word plural) : Plural word plural

theorem takesEs_iff : takesEs word = true ↔ ∃ tail ∈ hisses, tail <:+ word := by
  simp [takesEs, hisses, Text.endsWith_iff, or_assoc]

theorem regular_iff : Regular word plural ↔ regularPlural word = plural := by
  constructor
  · intro h
    rw [regularPlural]
    cases h with
    | hissing h ends => rw [if_pos (takesEs_iff.mpr ⟨_, h, ends⟩)]
    | @consonant stem h =>
      have calm : ¬ takesEs (stem ++ ['y']) = true := by
        rw [takesEs_iff]
        rintro ⟨tail, isHiss, front, same⟩
        have last := congrArg List.getLast? same
        revert tail
        simp [hisses]
      rw [if_neg calm, Text.dropTail?_append]
      simp [h]
    | other calm noConsonant =>
      rw [if_neg]
      · split
        · rename_i stem found
          rw [if_pos (noConsonant stem (Text.dropTail?_eq_some_iff.mp found))]
        · rfl
      · rw [takesEs_iff]
        exact fun ⟨tail, isHiss, ends⟩ => calm tail isHiss ends
  · rintro rfl
    rw [regularPlural]
    split
    · rename_i takes
      obtain ⟨tail, isHiss, ends⟩ := takesEs_iff.mp takes
      exact .hissing isHiss ends
    · rename_i calm
      rw [takesEs_iff] at calm
      have calm : ∀ tail ∈ hisses, ¬ tail <:+ word := fun tail isHiss ends =>
        calm ⟨tail, isHiss, ends⟩
      split
      · rename_i stem found
        obtain rfl := Text.dropTail?_eq_some_iff.mp found
        split
        · rename_i vowel
          refine .other calm fun stem' same => ?_
          rw [← List.append_cancel_right same]
          exact vowel
        · rename_i consonant
          exact .consonant (by simpa using consonant)
      · rename_i missing
        refine .other calm fun stem same => ?_
        rw [same, Text.dropTail?_append] at missing
        cases missing

theorem withoutF_append {stem tail : List Char} (isTail : tail = ['f'] ∨ tail = ['f', 'e']) :
    withoutF (stem ++ tail) = stem := by
  rcases isTail with rfl | rfl
  · have noE : Text.dropTail? ['f', 'e'] (stem ++ ['f']) = none := by
      rw [Option.eq_none_iff_forall_ne_some]
      intro front found
      have last := congrArg List.getLast? (Text.dropTail?_eq_some_iff.mp found)
      simp at last
    rw [withoutF, noE, Text.dropTail?_append]
    rfl
  · rw [withoutF, Text.dropTail?_append]

theorem pluralWord_of_listed (h : Listed word plural) : pluralWord word = plural := by
  cases h with
  | @uncountable name h =>
    have all : ∀ name ∈ uncountable, pluralWord name.toList = name.toList := by decide +kernel
    exact all name h
  | @irregular one many h =>
    have all : ∀ entry ∈ irregular, pluralWord entry.1.toList = entry.2.toList := by
      decide +kernel
    exact all (one, many) h
  | @ves name stem tail h isTail whole =>
    have all : ∀ name ∈ withVes,
        pluralWord name.toList = withoutF name.toList ++ ['v', 'e', 's'] := by decide +kernel
    rw [all name h, whole, withoutF_append isTail]
  | @oes name h =>
    have all : ∀ name ∈ withOes, pluralWord name.toList = name.toList ++ ['e', 's'] := by
      decide +kernel
    exact all name h

theorem pluralWord_of_free (filled : word ≠ []) (free : ∀ other, ¬ Listed word other) :
    pluralWord word = regularPlural word := by
  have same : (String.ofList word).toList = word := String.toList_ofList
  have countable : String.ofList word ∉ uncountable := by
    intro h
    exact free _ (same ▸ Listed.uncountable h)
  have regular : irregular.find? (fun entry => entry.1 == String.ofList word) = none := by
    refine List.find?_eq_none.mpr fun entry member found => ?_
    have named : entry.1.toList = word := by rw [eq_of_beq found, same]
    exact free _ (named ▸ Listed.irregular member)
  have noVes : String.ofList word ∉ withVes := by
    intro h
    have all : ∀ name ∈ withVes, Text.endsWith ['f'] name.toList = true ∨
        Text.endsWith ['f', 'e'] name.toList = true := by decide +kernel
    have ends := all _ h
    simp only [Text.endsWith_iff] at ends
    rcases ends with ⟨stem, whole⟩ | ⟨stem, whole⟩
    · exact free _ (same ▸ Listed.ves h (.inl rfl) whole.symm)
    · exact free _ (same ▸ Listed.ves h (.inr rfl) whole.symm)
  have noOes : String.ofList word ∉ withOes := by
    intro h
    exact free _ (same ▸ Listed.oes h)
  simp [pluralWord, filled, countable, regular, noVes, noOes]

/-- A word has one plural, and this is the one. -/
theorem pluralWord_eq_iff : pluralWord word = plural ↔ Plural word plural := by
  constructor
  · rintro rfl
    by_cases filled : word = []
    · subst filled
      exact .empty
    · by_cases listed : ∃ other, Listed word other
      · obtain ⟨other, listed⟩ := listed
        rw [pluralWord_of_listed listed]
        exact .listed listed
      · have free := not_exists.mp listed
        exact .regular filled free (regular_iff.mpr (pluralWord_of_free filled free).symm)
  · intro h
    cases h with
    | empty => rfl
    | listed h => exact pluralWord_of_listed h
    | regular filled free h => rw [pluralWord_of_free filled free, regular_iff.mp h]

/-! Plurals are settled texts like the words that they are made of. -/

theorem Settled.front {front back : List Char} (h : Settled (front ++ back)) : Settled front :=
  (List.forall_mem_append.mp h).1

theorem Listed.settled (h : Listed word plural) (settled : Settled word) : Settled plural := by
  cases h with
  | uncountable => exact settled
  | @irregular one many h =>
    have all : ∀ entry ∈ Naming.irregular, Settled entry.2.toList := by decide +kernel
    exact all (one, many) h
  | ves _ _ whole =>
    rw [whole] at settled
    exact settled.front.append (by decide)
  | oes => exact settled.append (by decide)

theorem Regular.settled (h : Regular word plural) (settled : Settled word) : Settled plural := by
  cases h with
  | hissing => exact settled.append (by decide)
  | consonant => exact settled.front.append (by decide)
  | other => exact settled.append (by decide)

theorem Plural.settled (h : Plural word plural) (settled : Settled word) : Settled plural := by
  cases h with
  | empty => exact settled
  | listed h => exact h.settled settled
  | regular _ _ h => exact h.settled settled

/-! The plural of an identifier. -/

theorem settled_of_mem_words {ident : String} (ascii : Ascii ident.toList) (h : word ∈ words ident) :
    Settled word := by
  have settled := settled_letters ascii
  rw [← flatten_words ascii] at settled
  exact fun c here => settled c (List.mem_flatten.mpr ⟨word, h, here⟩)

theorem Settled.not_mem {cs : List Char} (h : Settled cs) : '_' ∉ cs := fun member =>
  absurd (h '_' member).2.1 (by decide)

theorem pluralize_of_words {ident : String} (ascii : Ascii ident.toList) {front : List (List Char)}
    {last : List Char} (cut : words ident = front ++ [last]) :
    pluralize ident = String.ofList (front.flatten ++ pluralWord last) := by
  have clean : ∀ piece ∈ front ++ [last], '_' ∉ piece := fun piece member =>
    (settled_of_mem_words ascii (cut ▸ member)).not_mem
  have bare : '_' ∉ last := clean last (by simp)
  rw [pluralize, snakeChars, cut]
  by_cases filled : front = []
  · subst filled
    have single : Text.cutLast '_' last = none := Text.cutLast_eq_none bare
    simp [Text.join, single]
  · rw [Text.cutLast_join filled bare]
    have whole : (Text.join ['_'] front).filter (· != '_') = front.flatten :=
      Text.filter_join fun piece member => clean piece (by simp [member])
    simp [whole]

theorem pluralize_of_no_words {ident : String} (none : words ident = []) : pluralize ident = "" := by
  rw [pluralize, snakeChars, none]
  rfl

theorem settled_pluralize {ident : String} (ascii : Ascii ident.toList) :
    Settled (pluralize ident).toList := by
  rcases (words ident).eq_nil_or_concat with none | ⟨front, last, cut⟩
  · rw [pluralize_of_no_words none]
    exact nofun
  · rw [List.concat_eq_append] at cut
    have settled : ∀ word ∈ front ++ [last], Settled word := fun word member =>
      settled_of_mem_words ascii (cut ▸ member)
    rw [pluralize_of_words ascii cut, String.toList_ofList]
    refine Settled.append ?_ ((pluralWord_eq_iff.mp rfl).settled (settled last (by simp)))
    intro c member
    obtain ⟨word, there, here⟩ := List.mem_flatten.mp member
    exact settled word (by simp [there]) c here

/-- Only the last word of an identifier changes, to its plural. The result is a label. -/
theorem pluralize_last_word {ident : String} (ascii : Ascii ident.toList) :
    (words ident = [] → pluralize ident = "") ∧
    (∀ front last, words ident = front ++ [last] →
      flat ident = String.ofList (front.flatten ++ last) ∧
      pluralize ident = String.ofList (front.flatten ++ pluralWord last) ∧
      ∀ plural, pluralWord last = plural ↔ Plural last plural) ∧
    (∀ c ∈ (pluralize ident).toList, isSeparator c = false) ∧
    flat (pluralize ident) = pluralize ident := by
  have settled := settled_pluralize ascii
  refine ⟨pluralize_of_no_words, fun front last cut => ⟨?_, pluralize_of_words ascii cut, ?_⟩,
    fun c member => (settled c member).2.1, settled.flat_eq⟩
  · rw [flat, cut, List.flatten_concat]
  · exact fun plural => pluralWord_eq_iff

/-- A word with a table entry behind an acronym, a digit and an empty word, and the same letters
as one word, which no table holds. -/
theorem salesPerson_pluralized :
    Ascii "HTTP2__SalesPerson".toList ∧
    words "HTTP2__SalesPerson" =
      ["http".toList, "2".toList, [], "sales".toList] ++ ["person".toList] ∧
    flat "HTTP2__SalesPerson" = "http2salesperson" ∧
    pluralize "HTTP2__SalesPerson" = "http2salespeople" ∧
    Plural "person".toList "people".toList ∧
    flat (pluralize "HTTP2__SalesPerson") = pluralize "HTTP2__SalesPerson" ∧
    words "salesperson" = [] ++ ["salesperson".toList] ∧
    Plural "salesperson".toList "salespersons".toList := by
  have ascii : Ascii "HTTP2__SalesPerson".toList := by decide
  have cut : words "HTTP2__SalesPerson" =
      ["http".toList, "2".toList, [], "sales".toList] ++ ["person".toList] := by decide +kernel
  have single : words "salesperson" = [] ++ ["salesperson".toList] := by decide +kernel
  obtain ⟨_, parts, _, label⟩ := pluralize_last_word ascii
  have ascii' : Ascii "salesperson".toList := by decide
  obtain ⟨_, parts', _⟩ := pluralize_last_word ascii'
  obtain ⟨whole, changed, people⟩ := parts _ _ cut
  obtain ⟨_, _, persons⟩ := parts' _ _ single
  have front : ["http".toList, "2".toList, [], "sales".toList].flatten = "http2sales".toList := by
    decide
  have listed : pluralWord "person".toList = "people".toList := by decide +kernel
  have free : pluralWord "salesperson".toList = "salespersons".toList := by decide +kernel
  rw [front] at whole changed
  rw [listed] at changed
  exact ⟨ascii, cut, whole, changed, (people _).mp listed, label, single, (persons _).mp free⟩

end Naming

end ApiGraph
