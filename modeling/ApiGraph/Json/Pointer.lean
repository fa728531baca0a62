import ApiGraph.Json.Basic
import ApiGraph.Text.Cut

/-!
JSON pointers: a path of segments through objects and arrays. In a segment `~1` stands for `/`
and `~0` for `~`.
-/

namespace ApiGraph.Json.Pointer

/-- The segment that stands for a key. -/
def escape : List Char → List Char
  | [] => []
  | '~' :: rest => '~' :: '0' :: escape rest
  | '/' :: rest => '~' :: '1' :: escape rest
  | c :: rest => c :: escape rest

/-- The key that a segment stands for; a `~` before any other character stands for itself. -/
def unescape : List Char → List Char
  | [] => []
  | '~' :: '1' :: rest => '/' :: unescape rest
  | '~' :: '0' :: rest => '~' :: unescape rest
  | c :: rest => c :: unescape rest

/-- A segment as a place in an array: decimal digits without a leading zero. -/
def index? (segment : List Char) : Option Nat :=
  if segment.isEmpty || !segment.all Char.isDigit then none
  else if segment.head? == some '0' && segment.length != 1 then none
  else some (segment.foldl (fun n c => 10 * n + (c.toNat - '0'.toNat)) 0)

/-- One step down from a value. -/
def step (j : Json) (segment : List Char) : Option Json :=
  let key := unescape segment
  match j with
  | .object fields => Table.get? fields (String.ofList key)
  | .array items => (index? key).bind fun i => items[i]?
  | _ => none

/-- The segments of a pointer. The empty pointer has none; any other starts with `/`. -/
def segments? : List Char → Option (List (List Char))
  | [] => some []
  | '/' :: rest => some (Text.split '/' rest)
  | _ => none

end Pointer

/-- The value that a pointer leads to. -/
def pointer? (j : Json) (pointer : List Char) : Option Json := do
  (← Pointer.segments? pointer).foldlM Pointer.step j

end ApiGraph.Json
