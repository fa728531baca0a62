import ApiGraph.Json.Record
import ApiGraph.OpenApi.Kind

/-!
Relationships between entities and their cardinality, which is named from the side that holds the
reference: many-to-one means that many of the source point at one target.
-/

namespace ApiGraph

inductive Cardinality where
  | oneToOne
  | oneToMany
  | manyToOne
  | manyToMany
  /-- One target, which never points back. -/
  | toOne
  /-- Many targets, which never point back. -/
  | toMany
deriving DecidableEq, Repr

namespace Cardinality

def name : Cardinality → String
  | .oneToOne => "ONE_TO_ONE"
  | .oneToMany => "ONE_TO_MANY"
  | .manyToOne => "MANY_TO_ONE"
  | .manyToMany => "MANY_TO_MANY"
  | .toOne => "TO_ONE"
  | .toMany => "TO_MANY"

def named : List (String × Cardinality) :=
  [("ONE_TO_ONE", .oneToOne), ("ONE_TO_MANY", .oneToMany), ("MANY_TO_ONE", .manyToOne),
   ("MANY_TO_MANY", .manyToMany), ("TO_ONE", .toOne), ("TO_MANY", .toMany)]

/-- What the source holds together with what the target holds back, if anything. -/
def ofEvidence : Multiplicity → Option Multiplicity → Cardinality
  | .one, some .one => .oneToOne
  | .one, some .many => .manyToOne
  | .many, some .one => .oneToMany
  | .many, some .many => .manyToMany
  | .one, none => .toOne
  | .many, none => .toMany

/-- The cardinality from the side of the target; there is none if the target holds nothing back. -/
def inverse? : Cardinality → Option Cardinality
  | .oneToOne => some .oneToOne
  | .oneToMany => some .manyToOne
  | .manyToOne => some .oneToMany
  | .manyToMany => some .manyToMany
  | .toOne | .toMany => none

def isReciprocal (c : Cardinality) : Bool := c.inverse?.isSome

end Cardinality

structure Relationship where
  /-- The name of the target entity. -/
  target : String
  cardinality : Cardinality
  /-- The name under which the target refers back. -/
  backReference : Option String := none
  /-- Whether the source holds a list of targets. -/
  usesList : Bool
  /-- The table of a many-to-many relationship. -/
  joinTable : Option String := none
deriving DecidableEq, Repr

namespace Relationship

def fieldNames : List String :=
  ["target", "cardinality", "back_reference", "uses_list", "join_table"]

def ofRecord (r : Record Json) : Except Mismatch Relationship := do
  return {
    target := ← r.required "target" Json.toText
    cardinality := ← r.required "cardinality" (Json.toChoice Cardinality.named)
    backReference := ← r.orElse "back_reference" none (Json.orNull Json.toText)
    usesList := ← r.required "uses_list" Json.toBool
    joinTable := ← r.orElse "join_table" none (Json.orNull Json.toText) }

def ofJson (j : Json) : Except Mismatch Relationship := do
  ofRecord (← Record.ofJson fieldNames j)

def toFields (r : Relationship) : List (String × Json) :=
  [("target", .string r.target), ("cardinality", .string r.cardinality.name)] ++
  Json.optionalField "back_reference" (r.backReference.map .string) ++
  [("uses_list", .bool r.usesList)] ++
  Json.optionalField "join_table" (r.joinTable.map .string)

def toJson (r : Relationship) : Json := .object r.toFields

end Relationship

end ApiGraph
