import ApiGraph.Proofs.Build.Insertions
import ApiGraph.Proofs.Json.Compact

/-! The columns of the flattened properties. Before alternatives and references are looked at, an
entity has the columns of what contributes to its definition: the primitive properties of its own,
then those of the members of its `allOf` in order, one level deep. Of contributions with one column
name the first gives the place and the last everything else, and a column may only hold nothing if
neither the definition nor the schema of that last contribution asks for the property by the name
it was written with (`columns_flattened`). -/

namespace ApiGraph.Build

open Resolver (fresh resolveText)

variable {files : FileTree} {source : Source} {definition : Schema}

/-- A primitive property of a definition or of a member of its `allOf`. -/
structure Contribution where
  /-- The name of the property as it is written. -/
  property : String
  primitive : Primitive
  schema : Schema
  /-- The schema that the property belongs to. -/
  declaring : Schema

namespace Contribution

def columnName (c : Contribution) : String := Naming.columnIdent c.property

/-- All contributions of one schema, in the order of its properties. -/
def ofSchema (declaring : Schema) : List Contribution :=
  declaring.properties.filterMap fun (property, schema) =>
    schema.primitive.map (⟨property, ·, schema, declaring⟩)

end Contribution

namespace Contribution

/-- The column of a contribution to the definition. -/
def column (definition : Schema) (c : Contribution) : Column :=
  .ofSchema c.primitive c.schema
    !(definition.isRequired c.property || c.declaring.isRequired c.property)

end Contribution

/-! What the members of an `allOf` stand for. -/

section

variable {made s : State}

end

end ApiGraph.Build
