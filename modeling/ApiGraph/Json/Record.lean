import ApiGraph.Json.Basic

/-!
Records: values with a fixed list of named fields, read from JSON. A record is written as an
object, whose other keys are ignored, or as an array that holds the fields in their order and may
stop early. `Record.required` and `Record.orElse` then read one field each.
-/

namespace ApiGraph

/-- Why a value does not have the shape that its place calls for. -/
inductive Mismatch where
  | expected (shape : String)
  | missing (key : String)
  | repeated (key : String)
  | unknown (name : String)
  | tooLong (limit : Nat)
deriving DecidableEq, Repr

def Mismatch.text : Mismatch → String
  | .expected shape => "expected " ++ shape
  | .missing key => "missing field " ++ key
  | .repeated key => "repeated field " ++ key
  | .unknown name => "unknown name " ++ name
  | .tooLong limit => "expected at most " ++ toString limit ++ " items"

/-- The fields of a record that are there. -/
structure Record (α : Type u) where
  fields : Table α

namespace Record

/-- Keeps the entries with a declared name; no such name may stand twice. -/
def select (names : List String) : List (String × α) → Except Mismatch (Table α)
  | [] => .ok []
  | (key, value) :: rest => do
    let found ← select names rest
    if key ∈ names then
      if found.contains key then .error (.repeated key) else .ok ((key, value) :: found)
    else .ok found

def ofFields (names : List String) (fields : List (String × α)) : Except Mismatch (Record α) :=
  (select names fields).map (⟨·⟩)

def ofItems (names : List String) (items : List α) : Except Mismatch (Record α) :=
  if items.length ≤ names.length then .ok ⟨names.zip items⟩
  else .error (.tooLong names.length)

def ofJson (names : List String) : Json → Except Mismatch (Record Json)
  | .object fields => ofFields names fields
  | .array items => ofItems names items
  | _ => .error (.expected "a record")

/-- A field that must be there. -/
def required (r : Record α) (key : String) (read : α → Except Mismatch β) : Except Mismatch β :=
  match r.fields.get? key with
  | some value => read value
  | none => .error (.missing key)

/-- A field with a value for the case that it is missing. -/
def orElse (r : Record α) (key : String) (default : β) (read : α → Except Mismatch β) :
    Except Mismatch β :=
  match r.fields.get? key with
  | some value => read value
  | none => .ok default

end Record

/-! Readers for the values of fields. -/

namespace Json

def toText : Json → Except Mismatch String
  | .string s => .ok s
  | _ => .error (.expected "a string")

def toBool : Json → Except Mismatch Bool
  | .bool b => .ok b
  | _ => .error (.expected "a boolean")

/-- A whole number from 0 to below the limit. -/
def toNatBelow (limit : Nat) : Json → Except Mismatch Nat
  | .number (.int (.ofNat n)) =>
    if n < limit then .ok n else .error (.expected "a smaller number")
  | _ => .error (.expected "a whole number")

/-- Null, or a value. -/
def orNull (read : Json → Except Mismatch α) : Json → Except Mismatch (Option α)
  | .null => .ok none
  | j => (read j).map some

def toList (read : Json → Except Mismatch α) : Json → Except Mismatch (List α)
  | .array items => items.mapM read
  | _ => .error (.expected "an array")

def toEntries (read : Json → Except Mismatch α) :
    List (String × Json) → Except Mismatch (List (String × α))
  | [] => .ok []
  | (key, j) :: rest => do return (key, ← read j) :: (← toEntries read rest)

/-- Of entries with one key the first gives the place and the last the value. -/
def toTable (read : Json → Except Mismatch α) : Json → Except Mismatch (Table α)
  | .object fields => (toEntries read fields).map Table.ofList
  | _ => .error (.expected "an object")

/-- A table that is kept in the order of its keys. -/
def toSortedTable (read : Json → Except Mismatch α) (j : Json) : Except Mismatch (Table α) :=
  (toTable read j).map Table.sorted

/-- One of a list of named values: its name, or an object that maps the name to null. -/
def toChoice (choices : List (String × α)) (j : Json) : Except Mismatch α :=
  let name? : Option String :=
    match j with
    | .string name => some name
    | .object [(name, .null)] => some name
    | _ => none
  match name? with
  | none => .error (.expected "a name")
  | some name =>
    match Table.get? choices name with
    | some value => .ok value
    | none => .error (.unknown name)

/-- The entry for a field that is left out when there is no value. -/
def optionalField (key : String) (value : Option Json) : List (String × Json) :=
  match value with
  | some j => [(key, j)]
  | none => []

/-- The entry for a field that is left out when its list is empty. -/
def nonEmptyField (key : String) (items : List α) (value : Json) : List (String × Json) :=
  if items.isEmpty then [] else [(key, value)]

/-- A value, or null for none. -/
def ofOption (write : α → Json) : Option α → Json
  | some a => write a
  | none => .null

def ofTable (write : α → Json) (t : Table α) : Json :=
  .object (t.map fun (key, value) => (key, write value))

def ofTexts (items : List String) : Json := .array (items.map .string)

end Json

end ApiGraph
