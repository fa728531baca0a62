import ApiGraph.Json.Token
import ApiGraph.Proofs.Json.Whole
import Mathlib.Tactic.SplitIfs

/-! The tokens that characters spell. Brackets, commas, colons and white space stand for themselves,
and a quoted string ends at its quote; a word or a number ends only with what follows it. So
`Spells` is about characters with any text behind them that does not go on with a word or a number,
and spellings can then be put one behind the other (`Spells.append`). -/

namespace ApiGraph.Json.Token

/-- What is made of the rest of a text. -/
def scan (s : List Token × Mode) (cs : List Char) : Option (List Token) :=
  (cs.foldlM step s).bind fun (tokens, mode) => finish tokens mode

theorem ofText?_eq_scan (cs : List Char) :
    ofText? cs = (scan ([], .between) cs).map List.reverse := by
  rw [ofText?, scan]
  cases cs.foldlM step ([], .between) with
  | none => rfl
  | some s => exact Option.map_eq_bind.symm

theorem scan_cons {s n : List Token × Mode} {c : Char} (h : step s c = some n)
    (cs : List Char) : scan s (c :: cs) = scan n cs := by
  rw [scan, List.foldlM_cons, h]
  rfl

/-- No word and no number goes on with the character. -/
def Delimits (c : Char) : Prop := isWordChar c = false ∧ isNumberChar c = false

/-- The text is at its end or goes on with a character that ends words and numbers. -/
def Ends (cs : List Char) : Prop := ∀ c ∈ cs.head?, Delimits c

theorem ends_nil : Ends [] := by
  intro c h
  cases h

theorem ends_cons {c : Char} (h : Delimits c) (cs : List Char) : Ends (c :: cs) := by
  rintro d ⟨⟩
  exact h

theorem Ends.append {cs rest : List Char} (h : Ends cs) (later : Ends rest) :
    Ends (cs ++ rest) := by
  cases cs with
  | nil => exact later
  | cons c cs => exact h

def Spells (cs : List Char) (tokens : List Token) : Prop :=
  ∀ before rest, Ends rest →
    scan (before, .between) (cs ++ rest) = scan (tokens.reverse ++ before, .between) rest

/-- The tokens of a text that is spelled out to its end. -/
theorem Spells.ofText? {cs : List Char} {tokens : List Token} (h : Spells cs tokens) :
    ofText? cs = some tokens := by
  have all := h [] [] ends_nil
  rw [List.append_nil, List.append_nil] at all
  rw [ofText?_eq_scan, all]
  exact congrArg some tokens.reverse_reverse

theorem spells_nil : Spells [] [] := fun _ _ _ => rfl

theorem Spells.append {cs ds : List Char} {ts us : List Token} (h : Spells cs ts)
    (h' : Spells ds us) (ends : Ends ds) : Spells (cs ++ ds) (ts ++ us) := by
  intro before rest later
  rw [List.append_assoc, h _ _ (ends.append later), h' _ _ later, List.reverse_append,
    List.append_assoc]

/-- A character that stands for the given tokens, whatever comes before or after it. -/
def Marks (c : Char) (tokens : List Token) : Prop :=
  ∀ before, step (before, .between) c = some (tokens.reverse ++ before, .between)

theorem Marks.spells {c : Char} {ts us : List Token} (mark : Marks c ts) {cs : List Char}
    (h : Spells cs us) : Spells (c :: cs) (ts ++ us) := by
  intro before rest later
  rw [List.cons_append, scan_cons (mark before), h _ _ later, List.reverse_append,
    List.append_assoc]

theorem marks_space : Marks ' ' [] := fun _ => rfl

theorem marks_newLine : Marks '\n' [] := fun _ => rfl

theorem marks_comma : Marks ',' [.comma] := fun _ => rfl

theorem marks_colon : Marks ':' [.colon] := fun _ => rfl

theorem marks_openArray : Marks '[' [.openArray] := fun _ => rfl

theorem marks_closeArray : Marks ']' [.closeArray] := fun _ => rfl

theorem marks_openObject : Marks '{' [.openObject] := fun _ => rfl

theorem marks_closeObject : Marks '}' [.closeObject] := fun _ => rfl

/-! Words and numbers. -/

/-- A token that is still open is ended by what follows. -/
theorem scan_ended {before tokens : List Token} {mode : Mode} {rest : List Char}
    (complete : finish before mode = some tokens)
    (ended : ∀ c, Delimits c → step (before, mode) c = (finish before mode).bind (start · c))
    (ends : Ends rest) : scan (before, mode) rest = scan (tokens, .between) rest := by
  cases rest with
  | nil =>
    rw [scan, List.foldlM_nil]
    exact complete
  | cons c rest =>
    have next := ended c (ends c rfl)
    rw [complete] at next
    rw [scan, scan, List.foldlM_cons, List.foldlM_cons, next]
    rfl

/-- Characters that an open token takes up one after the other, each from its piece of the text. -/
theorem scan_pieces (before : List Token) (mode : List Char → Mode) (piece : Char → List Char)
    {cs : List Char} (takes : ∀ c ∈ cs, ∀ read rest,
      scan (before, mode read) (piece c ++ rest) = scan (before, mode (c :: read)) rest)
    (read rest : List Char) : scan (before, mode read) (cs.flatMap piece ++ rest) =
      scan (before, mode (cs.reverse ++ read)) rest := by
  induction cs generalizing read with
  | nil => rfl
  | cons c cs ih =>
    rw [List.flatMap_cons, List.append_assoc, takes c List.mem_cons_self,
      ih fun d member => takes d (List.mem_cons_of_mem c member), List.reverse_cons,
      List.append_assoc, List.singleton_append]

/-- Characters that go on with a word or a number. -/
theorem scan_onward (before : List Token) (mode : List Char → Mode) {cs : List Char}
    (onward : ∀ c ∈ cs, ∀ read, step (before, mode read) c = some (before, mode (c :: read)))
    (read rest : List Char) :
    scan (before, mode read) (cs ++ rest) = scan (before, mode (cs.reverse ++ read)) rest := by
  have all := scan_pieces before mode (fun c => [c])
    (fun c member read rest => scan_cons (onward c member read) rest) read rest
  rwa [List.flatMap_singleton'] at all

theorem spells_word {c : Char} {cs : List Char} {t : Token}
    (begins : ∀ before, step (before, .between) c = some (before, .word [c]))
    (letters : ∀ d ∈ cs, isWordChar d = true) (word : ofWord? (cs.reverse ++ [c]) = some t) :
    Spells (c :: cs) [t] := by
  intro before rest ends
  have complete : finish before (.word (cs.reverse ++ [c])) = some (t :: before) := by
    rw [finish, word]
    rfl
  rw [List.cons_append, scan_cons (begins before),
    scan_onward before .word fun d member read => if_pos (letters d member),
    scan_ended complete (fun d delimits => if_neg (by simp [delimits.1])) ends]
  rfl

theorem spells_null : Spells ['n', 'u', 'l', 'l'] [.null] :=
  spells_word (fun _ => rfl) (by simp [isWordChar]) rfl

theorem spells_true : Spells ['t', 'r', 'u', 'e'] [.bool true] :=
  spells_word (fun _ => rfl) (by simp [isWordChar]) rfl

theorem spells_false : Spells ['f', 'a', 'l', 's', 'e'] [.bool false] :=
  spells_word (fun _ => rfl) (by simp [isWordChar]) rfl

theorem spells_number {c : Char} {cs : List Char} {n : JsonNumber}
    (begins : ∀ before, step (before, .between) c = some (before, .number [c]))
    (numeral : ∀ d ∈ cs, isNumberChar d = true) (value : JsonNumber.ofText? (c :: cs) = some n) :
    Spells (c :: cs) [.number n] := by
  intro before rest ends
  have complete : finish before (.number (cs.reverse ++ [c])) = some (.number n :: before) := by
    rw [finish, List.reverse_append, List.reverse_reverse]
    exact congrArg (Option.map fun n => .number n :: before) value
  rw [List.cons_append, scan_cons (begins before),
    scan_onward before .number fun d member read => if_pos (numeral d member),
    scan_ended complete (fun d delimits => if_neg (by simp [delimits.2])) ends]
  rfl

theorem step_of_isDigit (before : List Token) {c : Char} (digit : c.isDigit = true) :
    step (before, .between) c = some (before, .number [c]) := by
  have other (d : Char) (h : d.isDigit = false) : c ≠ d := by
    rintro rfl
    rw [digit] at h
    cases h
  simp [step, start, digit, other ' ' rfl, other '\n' rfl, other '\t' rfl, other '\r' rfl,
    other '[' rfl, other ']' rfl, other '{' rfl, other '}' rfl, other ',' rfl, other ':' rfl,
    other '"' rfl]

theorem isNumberChar_of_isDigit {c : Char} (digit : c.isDigit = true) :
    isNumberChar c = true := by
  simp [isNumberChar, digit]

/-- A whole number that is kept exactly is spelled by its text. -/
theorem spells_exact {n : JsonNumber} (exact : n.Exact) : Spells n.text [.number n] := by
  have value := JsonNumber.ofText?_text exact
  rcases n with (n | n) | x
  · rw [JsonNumber.text] at value ⊢
    rcases digits : Decimal.digitsOf n with _ | ⟨c, cs⟩
    · exact absurd digits (JsonNumber.digitsOf_ne_nil n)
    · have isDigit : ∀ d ∈ c :: cs, d.isDigit = true := by
        rw [← digits]
        exact fun _ => JsonNumber.digitsOf_isDigit
      rw [digits] at value
      refine spells_number (fun before => step_of_isDigit before (isDigit c (by simp))) ?_ value
      exact fun d member => isNumberChar_of_isDigit (isDigit d (by simp [member]))
  · refine spells_number (fun _ => rfl) ?_ value
    exact fun d member => isNumberChar_of_isDigit (JsonNumber.digitsOf_isDigit member)
  · cases exact

/-! Strings. -/

theorem hexValue?_hexDigit {n : Nat} (h : n < 16) : hexValue? (hexDigit n) = some n := by
  revert n
  decide

theorem scan_short (before : List Token) (read rest : List Char) {letter c : Char}
    (short : escaped? letter = some c) (notUnit : letter ≠ 'u') :
    scan (before, .string read) ('\\' :: letter :: rest) =
      scan (before, .string (c :: read)) rest := by
  have next : step (before, .escape read) letter = some (before, .string (c :: read)) := by
    simp [step, notUnit, short]
  rw [scan_cons (n := (before, .escape read)) rfl, scan_cons next]

/-- A character below U+0020 that is written by its code. -/
theorem scan_code (before : List Token) (read rest : List Char) {n : Nat} (low : n < 32) :
    scan (before, .string read)
        ('\\' :: 'u' :: '0' :: '0' :: hexDigit (n / 16) :: hexDigit (n % 16) :: rest) =
      scan (before, .string (Char.ofNat n :: read)) rest := by
  have third : step (before, .hex read none 2 0) (hexDigit (n / 16)) =
      some (before, .hex read none 3 (n / 16)) := by
    simp [step, hexValue?_hexDigit (show n / 16 < 16 by omega)]
  have fourth : step (before, .hex read none 3 (n / 16)) (hexDigit (n % 16)) =
      some (before, .string (Char.ofNat n :: read)) := by
    have value : 16 * (n / 16) + n % 16 = n := by omega
    have noSurrogate : unit read none n = some (.string (Char.ofNat n :: read)) := by
      rw [unit, if_neg (by omega), if_neg (by omega)]
    simp [step, hexValue?_hexDigit (show n % 16 < 16 by omega), value, noSurrogate]
  rw [scan_cons (n := (before, .escape read)) rfl,
    scan_cons (n := (before, .hex read none 0 0)) rfl,
    scan_cons (n := (before, .hex read none 1 0)) rfl,
    scan_cons (n := (before, .hex read none 2 0)) rfl, scan_cons third, scan_cons fourth]

theorem scan_escapedChar (before : List Token) (read : List Char) (c : Char) (rest : List Char) :
    scan (before, .string read) (escapedChar c ++ rest) =
      scan (before, .string (c :: read)) rest := by
  have ofCode {n : Nat} (h : c.toNat = n) : Char.ofNat n = c := by
    rw [← h, Char.ofNat_toNat]
  rw [escapedChar]
  split_ifs with quote backslash newLine carriage tab backspace formFeed control
  · exact scan_short before read rest (by rw [quote]; rfl) (by decide)
  · exact scan_short before read rest (by rw [backslash]; rfl) (by decide)
  · exact scan_short before read rest (by rw [newLine]; rfl) (by decide)
  · exact scan_short before read rest (by rw [carriage]; rfl) (by decide)
  · exact scan_short before read rest (by rw [tab]; rfl) (by decide)
  · exact scan_short before read rest (congrArg some (ofCode backspace)) (by decide)
  · exact scan_short before read rest (congrArg some (ofCode formFeed)) (by decide)
  · have := scan_code before read rest control
    rwa [Char.ofNat_toNat] at this
  · exact scan_cons (by simp [step, quote, backslash, control]) rest

theorem spells_quoted (s : String) : Spells (quoted s) [.string s] := by
  intro before rest _
  have opened : step (before, .between) '"' = some (before, .string []) := rfl
  have closed : step (before, .string (s.toList.reverse ++ [])) '"' =
      some (.string s :: before, .between) := by
    simp [step]
  rw [quoted, List.cons_append, scan_cons opened, List.append_assoc,
    scan_pieces before .string escapedChar fun c _ read rest => scan_escapedChar before read c rest,
    List.singleton_append, scan_cons closed]
  rfl

end ApiGraph.Json.Token
