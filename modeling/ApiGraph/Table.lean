/-!
Tables: finite maps with text keys that remember the order in which their keys first appeared.

A table is a list of entries. `Table.insert` is the only way an entry gets in, so a key stands at
most once: a new key goes to the end, and a key that is already there keeps its place and takes
the new value.
-/

namespace ApiGraph

/-- Entries in the order of first appearance. -/
abbrev Table (α : Type u) := List (String × α)

namespace Table

def get? : Table α → String → Option α
  | [], _ => none
  | (name, value) :: rest, key => if name = key then some value else get? rest key

def contains (t : Table α) (key : String) : Bool := (t.get? key).isSome

def keys (t : Table α) : List String := List.map Prod.fst t

def values (t : Table α) : List α := List.map Prod.snd t

/-- A key that is present keeps its place and takes the new value; a new key goes to the end. -/
def insert : Table α → String → α → Table α
  | [], key, value => [(key, value)]
  | (name, old) :: rest, key, value =>
    if name = key then (name, value) :: rest else (name, old) :: insert rest key value

/-- As `insert`, except that a value that is already there stays. -/
def insertNew (t : Table α) (key : String) (value : α) : Table α :=
  if t.contains key then t else t.insert key value

/-- Takes the key out; the others keep their order. -/
def erase : Table α → String → Table α
  | [], _ => []
  | (name, value) :: rest, key =>
    if name = key then rest else (name, value) :: erase rest key

/-- All entries of the second table, over those of the first. -/
def insertAll (t : Table α) (entries : List (String × α)) : Table α :=
  entries.foldl (fun t entry => Table.insert t entry.1 entry.2) t

/-- Of entries with one key the first gives the place and the last the value. -/
def ofList (entries : List (String × α)) : Table α := Table.insertAll [] entries

/-- Keeps the keys sorted, if they were. -/
def insertSorted : Table α → String → α → Table α
  | [], key, value => [(key, value)]
  | (name, old) :: rest, key, value =>
    if name = key then (name, value) :: rest
    else if key < name then (key, value) :: (name, old) :: rest
    else (name, old) :: insertSorted rest key value

/-- A table sorted by key; of entries with one key the last gives the value. -/
def sorted (entries : List (String × α)) : Table α :=
  entries.foldl (fun t entry => Table.insertSorted t entry.1 entry.2) []

end Table

end ApiGraph
