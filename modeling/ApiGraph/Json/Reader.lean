import ApiGraph.Json.Token

/-!
Reading JSON text. A machine takes one token at a time and keeps the containers that are still
open. A text may nest at most 127 containers, and nothing may follow the value.

`Json.ofText?` gives the value in its settled form; `Json.entriesOfText?` keeps every entry of
an object, also those with a repeated key.
-/

namespace ApiGraph.Json

namespace Reader

/-- An open container with what was read of it, in reverse order. -/
inductive Frame where
  | items (read : List Json)
  | fields (read : List (String × Json)) (key : String)

/-- What may come next. -/
inductive State where
  | value (outer : List Frame)
  /-- After the bracket that opens an array. -/
  | firstItem (outer : List Frame)
  /-- After the brace that opens an object. -/
  | firstKey (outer : List Frame)
  | key (read : List (String × Json)) (outer : List Frame)
  | colon (read : List (String × Json)) (key : String) (outer : List Frame)
  /-- After a complete value. -/
  | done (value : Json) (outer : List Frame)

def depthLimit : Nat := 127

/-- A token where a value is due. -/
def startValue (outer : List Frame) : Token → Option State
  | .null => some (.done .null outer)
  | .bool b => some (.done (.bool b) outer)
  | .number n => some (.done (.number n) outer)
  | .string s => some (.done (.string s) outer)
  | .openArray => if outer.length < depthLimit then some (.firstItem outer) else none
  | .openObject => if outer.length < depthLimit then some (.firstKey outer) else none
  | _ => none

/-- A token after a value that stands in a container. -/
def continueFrame (value : Json) (outer : List Frame) : Frame → Token → Option State
  | .items read, .comma => some (.value (.items (value :: read) :: outer))
  | .items read, .closeArray => some (.done (.array (value :: read).reverse) outer)
  | .fields read key, .comma => some (.key ((key, value) :: read) outer)
  | .fields read key, .closeObject => some (.done (.object ((key, value) :: read).reverse) outer)
  | _, _ => none

def step : State → Token → Option State
  | .value outer, t => startValue outer t
  | .firstItem outer, .closeArray => some (.done (.array []) outer)
  | .firstItem outer, t => startValue (.items [] :: outer) t
  | .firstKey outer, .closeObject => some (.done (.object []) outer)
  | .firstKey outer, .string key => some (.colon [] key outer)
  | .key read outer, .string key => some (.colon read key outer)
  | .colon read key outer, .colon => some (.value (.fields read key :: outer))
  | .done value (frame :: outer), t => continueFrame value outer frame t
  | _, _ => none

def State.result? : State → Option Json
  | .done result [] => some result
  | _ => none

end Reader

def ofTokens? (tokens : List Token) : Option Json :=
  (tokens.foldlM Reader.step (.value [])).bind Reader.State.result?

def entriesOfText? (text : String) : Option Json := (Token.ofText? text.toList).bind ofTokens?

def ofText? (text : String) : Option Json := (entriesOfText? text).map settled

end ApiGraph.Json
