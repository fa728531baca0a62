import ApiGraph.Table
import ApiGraph.Decimal.Binary64

/-!
JSON values whose objects remember the order of their keys, and numbers that are either whole
numbers kept exactly or finite doubles.
-/

namespace ApiGraph

/-- A whole number from `-2 ^ 63` to below `2 ^ 64` is kept exactly, any other number as a
double. -/
inductive JsonNumber where
  | int (value : Int)
  | float (value : Decimal.Binary64)
deriving DecidableEq, Repr

/-- The entries of an object stand in document order. A value that was read from a document has
no key twice in one object (`Json.settled`). -/
inductive Json where
  | null
  | bool (value : Bool)
  | number (value : JsonNumber)
  | string (value : String)
  | array (items : List Json)
  | object (fields : List (String × Json))
deriving Repr

namespace Json

instance : Inhabited Json := ⟨.null⟩

mutual

/-- Equality of values, for objects including the order of keys. -/
def same : Json → Json → Bool
  | .null, .null => true
  | .bool a, .bool b => a == b
  | .number a, .number b => a == b
  | .string a, .string b => a == b
  | .array a, .array b => sameItems a b
  | .object a, .object b => sameFields a b
  | _, _ => false

def sameItems : List Json → List Json → Bool
  | [], [] => true
  | a :: as, b :: bs => same a b && sameItems as bs
  | _, _ => false

def sameFields : List (String × Json) → List (String × Json) → Bool
  | [], [] => true
  | (k, a) :: as, (l, b) :: bs => k == l && same a b && sameFields as bs
  | _, _ => false

end

def nat (n : Nat) : Json := .number (.int n)

def fields? : Json → Option (Table Json)
  | .object fields => some fields
  | _ => none

def items? : Json → Option (List Json)
  | .array items => some items
  | _ => none

def string? : Json → Option String
  | .string s => some s
  | _ => none

def isObject : Json → Bool
  | .object _ => true
  | _ => false

/-- The value at a key, if this is an object that has it. -/
def get? (j : Json) (key : String) : Option Json := j.fields?.bind (·.get? key)

mutual

/-- Brings every object to the form without repeated keys: the first entry gives the place and
the last one the value. -/
def settled : Json → Json
  | .array items => .array (settledItems items)
  | .object fields => .object (Table.ofList (settledFields fields))
  | j => j

def settledItems : List Json → List Json
  | [] => []
  | j :: rest => settled j :: settledItems rest

def settledFields : List (String × Json) → List (String × Json)
  | [] => []
  | (key, j) :: rest => (key, settled j) :: settledFields rest

end

end Json

end ApiGraph
