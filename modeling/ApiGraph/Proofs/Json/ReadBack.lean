import ApiGraph.Json.Printer
import ApiGraph.Json.Reader
import ApiGraph.Proofs.Json.Spells
import Mathlib.Data.List.Forall2

/-! Indented text reads back. The characters of a value spell its tokens, whatever the level of
indentation (`Plain.spells`), and the tokens are read as the value (`Plain.foldlM_tokens`), as long
as it does not nest deeper than the reader goes and holds whole numbers only. -/

namespace ApiGraph.Json

/-- A value that nests at most so many containers and whose numbers are kept exactly. -/
inductive Plain : Nat → Json → Prop where
  | null (depth : Nat) : Plain depth .null
  | bool (depth : Nat) (b : Bool) : Plain depth (.bool b)
  | number (depth : Nat) {n : JsonNumber} (exact : n.Exact) : Plain depth (.number n)
  | string (depth : Nat) (s : String) : Plain depth (.string s)
  | array {depth : Nat} {items : List Json} (each : ∀ j ∈ items, Plain depth j) :
    Plain (depth + 1) (.array items)
  | object {depth : Nat} {fields : List (String × Json)}
    (each : ∀ entry ∈ fields, Plain depth entry.2) : Plain (depth + 1) (.object fields)

theorem plain_array_iff {depth : Nat} {items : List Json} :
    Plain (depth + 1) (.array items) ↔ ∀ j ∈ items, Plain depth j := by
  constructor
  · rintro ⟨⟩
    assumption
  · exact .array

theorem plain_object_iff {depth : Nat} {fields : List (String × Json)} :
    Plain (depth + 1) (.object fields) ↔ ∀ entry ∈ fields, Plain depth entry.2 := by
  constructor
  · rintro ⟨⟩
    assumption
  · exact .object

/-! The tokens of a value. -/

/-- A comma between the parts. -/
def commas : List (List Token) → List Token
  | [] => []
  | [part] => part
  | part :: parts => part ++ .comma :: commas parts

mutual

def tokens : Json → List Token
  | .null => [.null]
  | .bool b => [.bool b]
  | .number n => [.number n]
  | .string s => [.string s]
  | .array items => .openArray :: (commas (tokensItems items) ++ [.closeArray])
  | .object fields => .openObject :: (commas (tokensFields fields) ++ [.closeObject])

def tokensItems : List Json → List (List Token)
  | [] => []
  | j :: rest => tokens j :: tokensItems rest

def tokensFields : List (String × Json) → List (List Token)
  | [] => []
  | (key, j) :: rest => (.string key :: .colon :: tokens j) :: tokensFields rest

end

theorem tokensItems_eq (items : List Json) : tokensItems items = items.map tokens := by
  induction items with
  | nil => rfl
  | cons j rest ih => rw [tokensItems, ih, List.map_cons]

theorem tokensFields_eq (fields : List (String × Json)) :
    tokensFields fields = fields.map fun entry => .string entry.1 :: .colon :: tokens entry.2 := by
  induction fields with
  | nil => rfl
  | cons entry rest ih => rw [tokensFields, ih, List.map_cons]

theorem indentedItems_eq (level : Nat) (items : List Json) :
    indentedItems level items = items.map (indentedChars level) := by
  induction items with
  | nil => rfl
  | cons j rest ih => rw [indentedItems, ih, List.map_cons]

theorem indentedFields_eq (level : Nat) (fields : List (String × Json)) :
    indentedFields level fields =
      fields.map fun entry => quoted entry.1 ++ ':' :: ' ' :: indentedChars level entry.2 := by
  induction fields with
  | nil => rfl
  | cons entry rest ih => rw [indentedFields, ih, List.map_cons]

/-! What the text of a value spells. -/

section

open Token

theorem spells_newLine {cs : List Char} {ts : List Token} (level : Nat) (h : Spells cs ts) :
    Spells (newLine level ++ cs) ts := by
  have spaces (n : Nat) : Spells (List.replicate n ' ' ++ cs) ts := by
    induction n with
    | zero => exact h
    | succ n ih => exact marks_space.spells ih
  exact marks_newLine.spells (spaces _)

theorem ends_newLine (level : Nat) (cs : List Char) : Ends (newLine level ++ cs) :=
  ends_cons ⟨rfl, rfl⟩ _

/-- Lines that are joined by commas, with nothing behind a comma that would spell anything. -/
theorem spells_join {blank : List Char}
    (idle : ∀ {cs : List Char} {ts : List Token}, Spells cs ts → Spells (blank ++ cs) ts)
    {lines : List (List Char)} {parts : List (List Token)}
    (each : List.Forall₂ Spells lines parts) :
    Spells (Text.join (',' :: blank) lines) (commas parts) := by
  induction each with
  | nil => exact spells_nil
  | cons first rest ih =>
    cases rest with
    | nil => exact first
    | cons =>
      rw [Text.join, commas, List.append_assoc]
      · exact first.append (marks_comma.spells (idle ih)) (ends_cons ⟨rfl, rfl⟩ _)
      · simp
      · simp

theorem spells_block {opening closing : Char} {first last : Token} (opens : Marks opening [first])
    (closes : Marks closing [last]) (level : Nat) {lines : List (List Char)}
    {parts : List (List Token)} (each : List.Forall₂ Spells lines parts) :
    Spells (block opening closing level lines) (first :: (commas parts ++ [last])) := by
  have closed := closes.spells spells_nil
  rw [block]
  split
  · rename_i none
    obtain rfl := List.isEmpty_iff.mp none
    cases each
    exact opens.spells closed
  · rw [List.append_assoc, List.append_assoc]
    refine opens.spells (spells_newLine _ ?_)
    exact (spells_join (spells_newLine _) each).append (spells_newLine level closed)
      (ends_newLine level _)

theorem forall₂_map {α β γ : Type} {related : β → γ → Prop} {f : α → β} {g : α → γ} {as : List α}
    (each : ∀ a ∈ as, related (f a) (g a)) : List.Forall₂ related (as.map f) (as.map g) :=
  List.forall₂_map_left_iff.mpr (List.forall₂_map_right_iff.mpr (List.forall₂_same.mpr each))

theorem Plain.spells {depth : Nat} {j : Json} (h : Plain depth j) (level : Nat) :
    Spells (indentedChars level j) j.tokens := by
  induction h generalizing level with
  | null => exact spells_null
  | bool _ b =>
    cases b with
    | true => exact spells_true
    | false => exact spells_false
  | number _ exact => exact spells_exact exact
  | string _ s => exact spells_quoted s
  | array _ ih =>
    rw [indentedChars, tokens, indentedItems_eq, tokensItems_eq]
    refine spells_block marks_openArray marks_closeArray level (forall₂_map ?_)
    exact fun j member => ih j member (level + 1)
  | object _ ih =>
    rw [indentedChars, tokens, indentedFields_eq, tokensFields_eq]
    refine spells_block marks_openObject marks_closeObject level (forall₂_map ?_)
    intro entry member
    have value := marks_colon.spells (marks_space.spells (ih entry member (level + 1)))
    exact (spells_quoted entry.1).append value (ends_cons ⟨rfl, rfl⟩ _)

end

/-! What the tokens of a value are read as. -/

namespace Reader

variable {outer : List Frame} {s n : State} {ts us : List Token}

/-- The state after all tokens. -/
def run (s : State) (tokens : List Token) : Option State := tokens.foldlM step s

theorem run_append (h : run s ts = some n) : run s (ts ++ us) = run n us := by
  rw [run, List.foldlM_append]
  exact congrArg (Option.bind · fun s => us.foldlM step s) h

theorem run_cons {t : Token} (h : step s t = some n) : run s (t :: us) = run n us := by
  rw [run, List.foldlM_cons, h]
  rfl

/-- Parts with commas between them, up to the closing bracket. A part takes the machine from where
it is due to where it is complete; what was read before stands in reverse order. -/
theorem run_commas {α : Type} {due : List α → State} {part : α → List Token}
    (complete : List α → α → State) (whole : List α → State) (closing : Token)
    (comma : ∀ read a, step (complete read a) .comma = some (due (a :: read)))
    (closed : ∀ read a, step (complete read a) closing = some (whole (a :: read)))
    {a : α} {parts : List α}
    (each : ∀ b ∈ a :: parts, ∀ read, run (due read) (part b) = some (complete read b))
    (read : List α) :
    run (due read) (commas ((a :: parts).map part) ++ [closing]) =
      some (whole ((a :: parts).reverse ++ read)) := by
  have first := each a (by simp) read
  induction parts generalizing a read with
  | nil =>
    rw [List.map_singleton, commas, run_append first, run_cons (closed read a)]
    rfl
  | cons b parts ih =>
    have later : ∀ c ∈ b :: parts, _ := fun c member => each c (by simp [member])
    have rest := ih later (a :: read) (later b (by simp) _)
    rw [List.map_cons] at rest
    rw [List.map_cons, List.map_cons, commas, List.append_assoc, List.cons_append,
      run_append first, run_cons (comma read a), rest]
    · simp
    · simp

/-- After the bracket that opens an array, a value is read as the first item. -/
theorem run_firstItem (j : Json) :
    run (.firstItem outer) (j.tokens ++ us) =
      run (.value (.items [] :: outer)) (j.tokens ++ us) := by
  cases j <;> simp only [tokens, List.cons_append, List.nil_append, run, List.foldlM_cons] <;> rfl

theorem run_items {j : Json} {rest : List Json}
    (each : ∀ item ∈ j :: rest, ∀ read, run (.value (.items read :: outer)) item.tokens =
      some (.done item (.items read :: outer))) :
    run (.firstItem outer) (commas ((j :: rest).map tokens) ++ [.closeArray]) =
      some (.done (.array (j :: rest)) outer) := by
  have all := run_commas (fun read item => .done item (.items read :: outer))
    (fun read => .done (.array read.reverse) outer) .closeArray (fun _ _ => rfl) (fun _ _ => rfl)
    each []
  rw [List.append_nil, List.reverse_reverse] at all
  rw [← all, List.map_cons]
  cases rest with
  | nil => exact run_firstItem j
  | cons =>
    rw [List.map_cons, commas, List.append_assoc]
    · exact run_firstItem j
    · simp

theorem run_fields {entry : String × Json} {rest : List (String × Json)}
    (each : ∀ field ∈ entry :: rest, ∀ read,
      run (.value (.fields read field.1 :: outer)) field.2.tokens =
        some (.done field.2 (.fields read field.1 :: outer))) :
    run (.firstKey outer) (commas ((entry :: rest).map fun field =>
        .string field.1 :: .colon :: tokens field.2) ++ [.closeObject]) =
      some (.done (.object (entry :: rest)) outer) := by
  have field : ∀ field ∈ entry :: rest, ∀ read,
      run (.key read outer) (.string field.1 :: .colon :: tokens field.2) =
        some (.done field.2 (.fields read field.1 :: outer)) := by
    intro field member read
    rw [run_cons (n := .colon read field.1 outer) rfl,
      run_cons (n := .value (.fields read field.1 :: outer)) rfl, each field member]
  have all := run_commas (fun read field => .done field.2 (.fields read field.1 :: outer))
    (fun read => .done (.object read.reverse) outer) .closeObject (fun _ _ => rfl) (fun _ _ => rfl)
    field []
  rw [List.append_nil, List.reverse_reverse] at all
  rw [← all, List.map_cons]
  -- A first key is read as any other key is.
  cases rest <;> rfl

end Reader

open Reader in
theorem Plain.run_tokens {depth : Nat} {j : Json} (h : Plain depth j) {outer : List Frame}
    (room : outer.length + depth ≤ depthLimit) :
    run (.value outer) j.tokens = some (.done j outer) := by
  induction h generalizing outer with
  | null => rfl
  | bool => rfl
  | number => rfl
  | string => rfl
  | @array depth items _ ih =>
    have opened : step (.value outer) .openArray = some (.firstItem outer) :=
      if_pos (by omega)
    rw [tokens, run_cons opened, tokensItems_eq]
    cases items with
    | nil => rfl
    | cons j rest =>
      refine run_items fun item member read => ih item member ?_
      rw [List.length_cons]
      omega
  | @object depth fields _ ih =>
    have opened : step (.value outer) .openObject = some (.firstKey outer) :=
      if_pos (by omega)
    rw [tokens, run_cons opened, tokensFields_eq]
    cases fields with
    | nil => rfl
    | cons entry rest =>
      refine run_fields fun field member read => ih field member ?_
      rw [List.length_cons]
      omega

theorem Plain.ofTokens? {j : Json} (h : Plain Reader.depthLimit j) :
    ofTokens? j.tokens = some j := by
  have all : Reader.run (.value []) j.tokens = some (.done j []) :=
    h.run_tokens (Nat.le_of_eq (by simp))
  rw [Json.ofTokens?]
  exact congrArg (Option.bind · Reader.State.result?) all

/-- An indented text is read as the value that was written, also with a line break at its end. -/
theorem Plain.entriesOfText? {j : Json} (h : Plain Reader.depthLimit j) :
    entriesOfText? j.indented = some j ∧ entriesOfText? (j.indented ++ "\n") = some j := by
  have spelled := h.spells 0
  have ended := spelled.append (Token.marks_newLine.spells Token.spells_nil)
    (Token.ends_cons ⟨rfl, rfl⟩ [])
  rw [List.append_nil, List.append_nil] at ended
  constructor
  · rw [Json.entriesOfText?, indented, String.toList_ofList, spelled.ofText?]
    exact h.ofTokens?
  · have text : (j.indented ++ "\n").toList = indentedChars 0 j ++ ['\n'] := by
      rw [indented, String.toList_append, String.toList_ofList]
      rfl
    rw [Json.entriesOfText?, text, ended.ofText?]
    exact h.ofTokens?

end ApiGraph.Json
